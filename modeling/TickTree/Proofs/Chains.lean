import TickTree.Proofs.Cancelling
import TickTree.Proofs.Contracts
import TickTree.Proofs.Reach

/-!
# Chains of suspended trees

Where hooks operate on no tree, an agent gets from the tree that it is ticked in into others along
links only. So the trees that it is suspended in are a chain (`Forest.Chain`): in each but the last
it is suspended on the link to the next, and in the last on a task.

A tick of the first tree goes on with such a chain, wherever it ends and whatever it comes to
(`Forest.serve_spans`). Taking the agent out of the tree leaves the chain behind the link that it
waits at (`Forest.Spans.checkOut`), and putting it back puts the tree in front
(`Forest.Suspends.checkIn`).
-/

namespace TickTree

variable {K A : Type} [DecidableEq K]

namespace World

variable {t : TreeId} {a : K} {w : World K A}

theorem waits_iff : w.Waits a t ↔ (w.state t a).paused = true := by
  rw [Waits, state]
  cases w.agent? t a with
  | none => simp
  | some s => simp

theorem Waits.agent? (h : w.Waits a t) : w.agent? t a = some (w.state t a) := by
  obtain ⟨s, hs, -⟩ := h
  rw [state_of_agent? hs, hs]

theorem Free.checkOut (h : w.Free a) (t : TreeId) : (w.checkOut t a).Free a :=
  fun u hu => h u (waits_checkOut hu).2

theorem within_inert (top : TreeId) (a : K) :
    World.InertRel (World.Within (K := K) (A := A) top a) where
  refl _ := .of_trees rfl
  trans _ _ _ := .trans
  inert _ :=
    { outside := fun hv htrees => hv.trans (.of_trees htrees)
      drawn := fun {v} hv t n => hv.trans
        { running := project_modifyTree v t (f := fun s => { s with drawn := n })
            (p := (·.running)) fun _ => rfl
          poisoned := project_modifyTree v t (f := fun s => { s with drawn := n })
            (p := (·.poisoned)) fun _ => rfl
          agent? := fun {u b} _ =>
            agent?_modifyTree v t (f := fun s => { s with drawn := n }) (fun _ => rfl) u b } }

theorem free_inert (a : K) : World.Inert fun w : World K A => w.Free a where
  outside h htrees := (sameTo_of_trees (r := 0) (q := True) htrees).free h
  drawn {w} h t n := (sameTo_modifyTree (r := t) (q := True) w t
    (f := fun s => { s with drawn := n }) (fun _ => rfl) (fun _ => rfl) fun _ _ _ hs => hs).free h

omit [DecidableEq K] in
theorem Inert.and {I J : World K A → Prop} (hI : World.Inert I) (hJ : World.Inert J) :
    World.Inert fun w => I w ∧ J w where
  outside h htrees := ⟨hI.outside h.1 htrees, hJ.outside h.2 htrees⟩
  drawn h t n := ⟨hI.drawn h.1 t n, hJ.drawn h.2 t n⟩

end World

namespace Forest

variable {F : Forest K A} {t u : TreeId} {a : K} {s : AgentState} {ts ts' : List TreeId}
  {w w' : World K A}

/-! ## Chains -/

/-- From a tree on, an agent is suspended in these trees: on the link to the next in each but the
last, and on a task in the last. -/
inductive Chain (F : Forest K A) (a : K) (w : World K A) : TreeId → List TreeId → Prop where
  | task {t : TreeId} {task : RunnableTask K A} :
      (F.tree t).awaited (w.state t a) = some (.task task) → Chain F a w t [t]
  | link {t : TreeId} {link : Link} {ts : List TreeId} :
      (F.tree t).awaited (w.state t a) = some (.subTree link) → Chain F a w link.tree ts →
      Chain F a w t (t :: ts)

/-- An agent is suspended in these trees and in no other: in none, or in a chain of trees. -/
structure Spans (F : Forest K A) (a : K) (w : World K A) (t : TreeId) (ts : List TreeId) :
    Prop where
  chain : ts ≠ [] → F.Chain a w t ts
  waits : ∀ u, w.Waits a u ↔ u ∈ ts

/-- If a tree kept this of an agent, the agent would be suspended in these trees. -/
inductive Suspends (F : Forest K A) (a : K) (t : TreeId) (s : AgentState) (w : World K A) :
    List TreeId → Prop where
  | none : s.paused = false → w.Free a → Suspends F a t s w []
  | task {task : RunnableTask K A} :
      (F.tree t).awaited s = some (.task task) → w.Free a → Suspends F a t s w [t]
  | link {link : Link} {ts : List TreeId} : (F.tree t).awaited s = some (.subTree link) →
      F.Spans a w link.tree ts → ts ≠ [] → Suspends F a t s w (t :: ts)

theorem Chain.head (h : F.Chain a w t ts) : ∃ rest, ts = t :: rest := by
  cases h with
  | task => exact ⟨[], rfl⟩
  | link => exact ⟨_, rfl⟩

theorem Chain.ne_nil (h : F.Chain a w t ts) : ts ≠ [] := by
  obtain ⟨rest, rfl⟩ := h.head
  simp

theorem Chain.waits (h : F.Chain a w t ts) : ∀ u ∈ ts, w.Waits a u := by
  induction h with
  | task hawaited =>
    exact List.forall_mem_singleton.2 (World.waits_iff.2 (Tree.paused_of_awaited hawaited))
  | link hawaited _ ih =>
    exact List.forall_mem_cons.2 ⟨World.waits_iff.2 (Tree.paused_of_awaited hawaited), ih⟩

/-- A chain goes down. -/
theorem Chain.le (hF : F.Descends) (h : F.Chain a w t ts) : ∀ u ∈ ts, u ≤ t := by
  induction h with
  | task => exact List.forall_mem_singleton.2 (Nat.le_refl _)
  | link hawaited _ ih =>
    exact List.forall_mem_cons.2 ⟨Nat.le_refl _,
      fun u hu => Nat.le_trans (ih u hu) (Nat.le_of_lt (awaited_lt hF hawaited))⟩

/-- Behind a link, a chain does not come back. -/
theorem Chain.ne (hF : F.Descends) {link : Link}
    (hawaited : (F.tree t).awaited s = some (.subTree link)) (h : F.Chain a w link.tree ts) :
    ∀ u ∈ ts, t ≠ u := fun u hu =>
  (Nat.ne_of_lt (Nat.lt_of_le_of_lt (h.le hF u hu) (awaited_lt hF hawaited))).symm

theorem Chain.unique (h : F.Chain a w t ts) (h' : F.Chain a w t ts') : ts = ts' := by
  induction h generalizing ts' with
  | task hawaited =>
    cases h' with
    | task => rfl
    | link hawaited' => simp [hawaited] at hawaited'
  | link hawaited _ ih =>
    cases h' with
    | task hawaited' => simp [hawaited] at hawaited'
    | link hawaited' hrest =>
      rw [hawaited] at hawaited'
      cases hawaited'
      rw [ih hrest]

/-- Along a chain, the trees behind the first are those that the links lead to which the agent is
suspended on. -/
theorem Chain.linked_iff (hF : F.Descends) (h : F.Chain a w t ts) :
    (∃ x ∈ ts, ∃ link, (F.tree x).awaited (w.state x a) = some (.subTree link) ∧ link.tree = u) ↔
      u ∈ ts ∧ u ≠ t := by
  induction h with
  | @task t task hawaited =>
    refine iff_of_false ?_ fun hu => hu.2 (List.mem_singleton.1 hu.1)
    rintro ⟨x, hx, link, hlink, -⟩
    obtain rfl := List.mem_singleton.1 hx
    simp [hawaited] at hlink
  | @link t link rest hawaited hrest ih =>
    have hne := hrest.ne hF hawaited
    have hhead : link.tree ∈ rest := by
      obtain ⟨tail, rfl⟩ := hrest.head
      exact .head tail
    constructor
    · rintro ⟨x, hx, link', hlink, rfl⟩
      suffices hin : link'.tree ∈ rest from ⟨.tail t hin, (hne _ hin).symm⟩
      rcases List.mem_cons.1 hx with rfl | hx
      · rw [hawaited] at hlink
        cases hlink
        exact hhead
      · exact (ih.1 ⟨x, hx, link', hlink, rfl⟩).1
    · rintro ⟨hu, hut⟩
      have hin := (List.mem_cons.1 hu).resolve_left hut
      by_cases hlt : u = link.tree
      · exact ⟨t, .head rest, link, hawaited, hlt.symm⟩
      · obtain ⟨x, hx, hlink⟩ := ih.2 ⟨hin, hlt⟩
        exact ⟨x, .tail t hx, hlink⟩

/-- A chain depends on what the agent waits for in its trees. -/
theorem Chain.congr (h : F.Chain a w t ts)
    (hsame : ∀ u ∈ ts, (F.tree u).awaited (w'.state u a) = (F.tree u).awaited (w.state u a)) :
    F.Chain a w' t ts := by
  induction h with
  | task hawaited => exact .task ((hsame _ (.head _)).trans hawaited)
  | link hawaited _ ih =>
    exact .link ((hsame _ (.head _)).trans hawaited) (ih fun u hu => hsame u (.tail _ hu))

theorem Chain.same (h : F.Chain a w t ts) (hsame : ∀ u ∈ ts, w'.state u a = w.state u a) :
    F.Chain a w' t ts := h.congr fun u hu => by rw [hsame u hu]

/-! ## Spans -/

theorem spans_of_free (h : w.Free a) (t : TreeId) : F.Spans a w t [] :=
  ⟨fun hne => absurd rfl hne, fun u => iff_of_false (h u) List.not_mem_nil⟩

theorem Spans.free (h : F.Spans a w t []) : w.Free a :=
  fun u hu => List.not_mem_nil ((h.waits u).1 hu)

theorem Chain.spans (h : F.Chain a w t ts) (hwaits : ∀ u, w.Waits a u → u ∈ ts) :
    F.Spans a w t ts :=
  ⟨fun _ => h, fun u => ⟨hwaits u, h.waits u⟩⟩

theorem Spans.cases (h : F.Spans a w t ts) : (ts = [] ∧ w.Free a) ∨ F.Chain a w t ts := by
  by_cases hne : ts = []
  · subst hne
    exact .inl ⟨rfl, h.free⟩
  · exact .inr (h.chain hne)

theorem Spans.unique (h : F.Spans a w t ts) (h' : F.Spans a w t ts') : ts = ts' := by
  rcases h.cases with ⟨rfl, hfree⟩ | hchain
  · rcases h'.cases with ⟨rfl, -⟩ | hchain'
    · rfl
    · obtain ⟨rest, rfl⟩ := hchain'.head
      exact absurd (hchain'.waits t (.head rest)) (hfree t)
  · rcases h'.cases with ⟨rfl, hfree⟩ | hchain'
    · obtain ⟨rest, rfl⟩ := hchain.head
      exact absurd (hchain.waits t (.head rest)) (hfree t)
    · exact hchain.unique hchain'

/-- Links lead to the trees that an agent is suspended in, but for the first. -/
theorem Spans.linked_iff (hF : F.Descends) (h : F.Spans a w t ts) (u : TreeId) :
    (∃ x link, (F.tree x).awaited (w.state x a) = some (.subTree link) ∧ link.tree = u) ↔
      w.Waits a u ∧ u ≠ t := by
  have hmem : ∀ {x link}, (F.tree x).awaited (w.state x a) = some (.subTree link) → x ∈ ts :=
    fun hlink => (h.waits _).1 (World.waits_iff.2 (Tree.paused_of_awaited hlink))
  rcases h.cases with ⟨rfl, hfree⟩ | hchain
  · refine iff_of_false ?_ fun hu => hfree u hu.1
    rintro ⟨x, link, hlink, -⟩
    exact List.not_mem_nil (hmem hlink)
  · rw [h.waits, ← hchain.linked_iff hF]
    constructor
    · rintro ⟨x, link, hlink, hu⟩
      exact ⟨x, hmem hlink, link, hlink, hu⟩
    · rintro ⟨x, -, hlink⟩
      exact ⟨x, hlink⟩

theorem Spans.eq_nil_iff (h : F.Spans a w t ts) : ts = [] ↔ ¬ w.Waits a t := by
  rcases h.cases with ⟨rfl, hfree⟩ | hchain
  · exact iff_of_true rfl (hfree t)
  · obtain ⟨rest, rfl⟩ := hchain.head
    exact iff_of_false hchain.ne_nil fun hnot => hnot (hchain.waits t (.head rest))

/-- What an agent is suspended in depends on where it stands. -/
theorem Spans.congr (h : F.Spans a w t ts)
    (hcursor : ∀ u, (w'.state u a).cursor = (w.state u a).cursor)
    (hpaused : ∀ u, (w'.state u a).paused = (w.state u a).paused) : F.Spans a w' t ts where
  chain hne := (h.chain hne).congr fun u _ => by
    rw [Tree.awaited, Tree.awaited, hcursor, hpaused]
  waits u := by rw [World.waits_iff, hpaused, ← World.waits_iff, h.waits]

theorem Spans.same (h : F.Spans a w t ts) (hsame : ∀ u, w'.state u a = w.state u a) :
    F.Spans a w' t ts := h.congr (fun u => by rw [hsame]) fun u => by rw [hsame]

/-- Taking an agent out of a tree leaves what its state there suspends. -/
theorem Spans.checkOut (hF : F.Descends) (h : F.Spans a w t ts) :
    F.Suspends a t (w.state t a) (w.checkOut t a) ts := by
  rcases h.cases with ⟨rfl, hfree⟩ | hchain
  · exact .none (hfree.unpaused t) (hfree.checkOut t)
  · cases hchain with
    | task hawaited =>
      refine .task hawaited fun u hu => ?_
      obtain ⟨htu, hu⟩ := World.waits_checkOut hu
      exact htu (List.mem_singleton.1 ((h.waits u).1 hu)).symm
    | link hawaited hrest =>
      have hne := hrest.ne hF hawaited
      refine .link hawaited (Chain.spans (hrest.same fun u hu => World.state_checkOut (hne u hu))
        fun u hu => ?_) hrest.ne_nil
      obtain ⟨htu, hu⟩ := World.waits_checkOut hu
      exact (List.mem_cons.1 ((h.waits u).1 hu)).resolve_left htu.symm

/-- Putting an agent into a tree puts the tree in front of what the agent is suspended in. -/
theorem Suspends.checkIn (hF : F.Descends) (h : F.Suspends a t s w ts) :
    F.Spans a (w.checkIn t a s) t ts := by
  have hstate : (w.checkIn t a s).state t a = s := World.state_checkIn s
  cases h with
  | none hs hfree => exact spans_of_free (hfree.checkIn hs t) t
  | task hawaited hfree =>
    refine Chain.spans (.task (hstate.symm ▸ hawaited)) fun u hu => ?_
    rcases World.waits_checkIn hu with ⟨rfl, -⟩ | ⟨-, hu⟩
    · exact .head _
    · exact absurd hu (hfree u)
  | link hawaited hspans hne =>
    have hrest := hspans.chain hne
    have hother := hrest.ne hF hawaited
    refine Chain.spans (.link (hstate.symm ▸ hawaited)
      (hrest.same fun u hu => World.state_checkIn_of_ne (hother u hu) s)) fun u hu => ?_
    rcases World.waits_checkIn hu with ⟨rfl, -⟩ | ⟨-, hu⟩
    · exact .head _
    · exact .tail _ ((hspans.waits u).1 hu)

end Forest

/-! ## Ticks -/

/-- Runs of an agent go on with the trees it is suspended in, and change nothing else. -/
def Handler.Spans (F : Forest K A) (a : K) (handler : Handler K A) : Prop :=
  ∀ {t w r w' ts}, (∀ u ≤ t, w.Ready u) → F.Spans a w t ts →
    handler (.run t a) w = .done r w' →
    w.Within (t + 1) a w' ∧ ∃ ts', F.Spans a w' t ts' ∧ (ts' ≠ [] ↔ r = .ok .running)

namespace Tick

variable {F : Forest K A} {tick : Tick K A} {handler : Handler K A} {t : TreeId} {a : K}
  {f : Frame} {p : Progress} {index : Nat} {w w' : World K A}

/-- A quiet instruction that is no link goes on as its kind says, and keeps what does not depend on
it. -/
theorem dispatch_inert {I : World K A → Prop} (hI : World.Inert I) {i : Instruction Nat K A}
    (hq : ∀ {task}, i.op = .task task → task.Asks Request.Quiet)
    (hlink : ∀ link, i.op ≠ .subTree link) (hw : I w) {resumed : Bool} {s : AgentState}
    {answer : Move × AgentState}
    (h : tick.dispatch handler index resumed i s w = .done answer w') :
    i.Leads index s answer ∧ I w' := by
  rw [dispatch_eq_under] at h
  refine (dispatchCourse_meets (C := .free) hI (fun hop => (hq hop).imp fun r hr => ?_) hlink hw
    resumed s).under_free h
  cases r with
  | call => exact hr.elim
  | _ => trivial

/-- How far the walk of an agent in a tree has come. The agent is suspended nowhere, unless the walk
is about to resume a link or has ended. -/
inductive Spanning (F : Forest K A) (t : TreeId) (a : K) : Progress → World K A → Prop where
  | free {f : Frame} {w : World K A} : w.Free a → Spanning F t a (.underway f) w
  | resumed {f : Frame} {w : World K A} {i : Instruction Nat K A} {link : Link}
      {ts : List TreeId} : f.spent = 0 → (F.tree t).program.get? f.cursor = some i →
      i.op = .subTree link → F.Spans a w link.tree ts → Spanning F t a (.underway f) w
  | ended {r : Except RunError Status} {s : AgentState} {w : World K A} {ts : List TreeId} :
      F.Suspends a t s w ts → (ts ≠ [] ↔ r = .ok .running) → Spanning F t a (.ended r s) w

theorem spanning_rewound (h : w.Free a) {r : Except RunError Status} (hr : r ≠ .ok .running)
    (s : AgentState) : Spanning F t a (.ended r s.rewind) w :=
  .ended (.none rfl h) (iff_of_false (by simp) hr)

/-- An instruction after which the agent is suspended nowhere. -/
theorem spanning_follow (h : w.Free a) {i : Instruction Nat K A}
    (hget : (F.tree t).program.get? f.cursor = some i) {answer : Move × AgentState}
    (htask : answer.1 = .suspend → ∃ task, i.op = .task task) :
    Spanning F t a (follow f answer) w := by
  obtain ⟨move, s⟩ := answer
  cases move with
  | goto index => exact .free h
  | suspend =>
    obtain ⟨task, hop⟩ := htask rfl
    exact .ended (.task (hop ▸ Tree.awaited_paused rfl hget) h) (iff_of_true (by simp) rfl)
  | stop e => exact spanning_rewound h (by simp) s

theorem link_spans (hh : handler.Spans F a) {i : Instruction Nat K A} {link : Link}
    (hget : (F.tree t).program.get? f.cursor = some i) (hop : i.op = .subTree link)
    (hlt : link.tree < t) (hready : ∀ u < t, w.Ready u) {ts : List TreeId}
    (hspans : F.Spans a w link.tree ts) {answer : Move × AgentState}
    (h : (F.tickOf t a).dispatch handler f.cursor f.resumed i f.state w = .done answer w') :
    w.Within t a w' ∧ Spanning F t a (follow f answer) w' := by
  rw [dispatch_subTree _ _ hop, Outcome.bind_eq_done_iff] at h
  obtain ⟨r, w₁, hrun, hdone⟩ := h
  obtain ⟨hwithin, ts', hspans', hiff⟩ :=
    hh (fun u hu => hready u (Nat.lt_of_le_of_lt hu hlt)) hspans hrun
  have hfree : r ≠ .ok .running → w₁.Free a := by
    intro hr
    obtain rfl : ts' = [] := Classical.byContradiction fun hne => hr (hiff.1 hne)
    exact hspans'.free
  cases r with
  | error e =>
    cases hdone
    have hlogged : (w₁.log (.linkFailed t a f.cursor e)).Free a := hfree (by simp)
    exact ⟨(hwithin.mono hlt).trans (.of_trees rfl), spanning_rewound hlogged (by simp) _⟩
  | ok status =>
    cases hdone
    refine ⟨hwithin.mono hlt, ?_⟩
    cases status with
    | running =>
      have hne : ts' ≠ [] := hiff.2 rfl
      exact .ended (.link (hop ▸ Tree.awaited_paused rfl hget) hspans' hne)
        (iff_of_true (by simp) rfl)
    | success | failure => exact .free (hfree (by simp))

theorem advance_spans (hF : F.Descends) (hq : (F.tickOf t a).Quiet) (hh : handler.Spans F a)
    (hready : ∀ u < t, w.Ready u) (hf : Spanning F t a (.underway f) w)
    (h : (F.tickOf t a).advance handler f w = .done p w') :
    w.Within t a w' ∧ Spanning F t a p w' := by
  cases advance_cases h with
  | atEnd hnone =>
    cases hf with
    | free hfree =>
      exact ⟨.of_trees rfl, spanning_rewound hfree ((F.tickOf t a).resultAt_ne_running _) _⟩
    | resumed _ hget =>
      rw [show (F.tickOf t a).tree.program.get? f.cursor = some _ from hget] at hnone
      cases hnone
  | @limited _ limit _ hex =>
    cases hf with
    | free hfree =>
      have hlogged : (w.log (.limitReached t a f.cursor limit)).Free a := hfree
      exact ⟨.of_trees rfl, spanning_rewound hlogged (by simp) f.state⟩
    | resumed hspent =>
      rw [Tick.exhausted_unspent _ hspent] at hex
      cases hex
  | @dispatched i answer _ _ hget _ hdispatch hfollow =>
    subst hfollow
    have hlog : w.Within t a (w.log (.dispatched t a f.cursor)) := .of_trees rfl
    by_cases hlink : ∃ link, i.op = .subTree link
    · obtain ⟨link, hop⟩ := hlink
      obtain ⟨ts, hspans⟩ : ∃ ts, F.Spans a (w.log (.dispatched t a f.cursor)) link.tree ts := by
        cases hf with
        | free hfree =>
          have hlogged : (w.log (.dispatched t a f.cursor)).Free a := hfree
          exact ⟨[], Forest.spans_of_free hlogged link.tree⟩
        | @resumed _ _ i' _ ts _ hget' hop' hspans =>
          rw [show (F.tree t).program.get? f.cursor = some i from hget] at hget'
          cases hget'
          rw [hop] at hop'
          cases hop'
          exact ⟨ts, hspans.same fun _ => rfl⟩
      obtain ⟨hwithin, hcomes⟩ := link_spans hh hget hop (hF hget hop)
        (fun u hu => hlog.ready u (hready u hu)) hspans hdispatch
      exact ⟨hlog.trans hwithin, hcomes⟩
    · have hfree : w.Free a := by
        cases hf with
        | free hfree => exact hfree
        | resumed _ hget' hop' =>
          rw [show (F.tree t).program.get? f.cursor = some i from hget] at hget'
          cases hget'
          exact absurd ⟨_, hop'⟩ hlink
      obtain ⟨hleads, hwithin, hfree'⟩ := dispatch_inert
        (((World.within_inert t a).inert w).and (World.free_inert a)) (quiet_task hq hget)
        (fun link hop => hlink ⟨link, hop⟩) ⟨hlog, hfree⟩ hdispatch
      refine ⟨hwithin, spanning_follow hfree' hget fun hsuspend => ?_⟩
      cases hleads with
      | suspend hop _ => exact ⟨_, hop⟩
      | next | start | count | poisoned | corrupt => cases hsuspend

theorem walk_spans (hF : F.Descends) (hq : (F.tickOf t a).Quiet) (hh : handler.Spans F a)
    (hready : ∀ u < t, w.Ready u) {n : Nat} (hf : Spanning F t a (.underway f) w)
    (h : (F.tickOf t a).walk handler n f w = .done p w') :
    w.Within t a w' ∧ Spanning F t a p w' := by
  induction n generalizing f w with
  | zero =>
    cases h
    exact ⟨.of_trees rfl, hf⟩
  | succ n ih =>
    rw [walk_succ, Outcome.bind_eq_done_iff] at h
    obtain ⟨p₁, w₁, hstep, hrest⟩ := h
    obtain ⟨hwithin, hspanning⟩ := advance_spans hF hq hh hready hf hstep
    cases p₁ with
    | ended r s =>
      cases hrest
      exact ⟨hwithin, hspanning⟩
    | underway g =>
      obtain ⟨hwithin', hspanning'⟩ :=
        ih (fun u hu => hwithin.ready u (hready u hu)) hspanning hrest
      exact ⟨hwithin.trans hwithin', hspanning'⟩

theorem perform_spans (hF : F.Descends) (hq : (F.tickOf t a).Quiet) (hh : handler.Spans F a)
    (hready : ∀ u < t, w.Ready u) {bound : Nat} {s s' : AgentState} {r : Except RunError Status}
    {ts : List TreeId} (hs : F.Suspends a t s w ts)
    (h : (F.tickOf t a).perform handler bound s w = .done (r, s') w') :
    w.Within t a w' ∧ Spanning F t a (.ended r s') w' := by
  by_cases hin : s.cursor < (F.tree t).program.length
  · have hbegin : Spanning F t a (.underway (.begin s)) w := by
      cases hs with
      | none _ hfree | task _ hfree => exact .free hfree
      | link hawaited hspans =>
        obtain ⟨i, hget, hop⟩ := Tree.awaited_inv hawaited
        exact .resumed rfl hget hop hspans
    exact walk_spans hF hq hh hready hbegin (walk_of_perform hin h)
  · have hfree : w.Free a := by
      cases hs with
      | none _ hfree | task _ hfree => exact hfree
      | link hawaited =>
        obtain ⟨i, hget, -⟩ := Tree.awaited_inv hawaited
        exact absurd (Program.lt_length_of_get? hget) hin
    rw [perform, if_pos (Nat.le_of_not_lt hin)] at h
    cases h
    exact ⟨.of_trees rfl, spanning_rewound hfree (by simp) s⟩

end Tick

namespace Forest

variable {F : Forest K A} {handler : Handler K A} {t : TreeId} {a : K} {w w' : World K A}

theorem run_spans (hF : F.Descends) (hq : F.Asks Request.Quiet) (hs : handler.Spares)
    (hh : handler.Spans F a) {bound : Nat} {r : Except RunError Status} {ts : List TreeId}
    (hready : ∀ u ≤ t, w.Ready u) (hspans : F.Spans a w t ts)
    (h : F.run handler bound t a w = .done r w') :
    w.Within (t + 1) a w' ∧ ∃ ts', F.Spans a w' t ts' ∧ (ts' ≠ [] ↔ r = .ok .running) := by
  have hown := hready t (Nat.le_refl t)
  obtain ⟨s, w₁, hperform, rfl⟩ := ticked_of_run hq hs hown.1 hown.2 h
  have hstate : ∀ u, (w.enter t a).state u a = w.state u a := fun u => by
    rw [World.state, World.agent?_enter, World.state]
  have hready₁ : ∀ u < t, ((w.enter t a).checkOut t a).Ready u := fun u hu => by
    refine World.ready_checkOut ?_
    rw [World.Ready, World.tree_enter_of_ne w a (Nat.ne_of_gt hu)]
    exact hready u (Nat.le_of_lt hu)
  have hout := (hspans.same hstate).checkOut hF
  rw [hstate] at hout
  obtain ⟨hwithin, hspanning⟩ := Tick.perform_spans hF (hq t) hh hready₁ hout hperform
  refine ⟨within_of_walk hwithin hown s, ?_⟩
  cases hspanning with
  | @ended _ _ _ ts' hsuspends hiff =>
    refine ⟨ts', (hsuspends.checkIn hF).same fun u => ?_, hiff⟩
    rw [World.state, World.agent?_leave, World.state]

/-- A tick of an agent goes on with the trees it is suspended in. There are some afterwards exactly
if it answers Running. -/
theorem serve_spans (hF : F.Descends) (hq : F.Asks Request.Quiet) (bound : Nat) :
    (F.serve bound).Spans F a := by
  induction bound with
  | zero =>
    intro t w r w' ts _ _ h
    cases h
  | succ bound ih =>
    intro t w r w' ts hready hspans h
    exact run_spans hF hq (serve_spares hq bound) ih hready hspans h

end Forest

end TickTree

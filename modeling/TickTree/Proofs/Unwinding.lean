import TickTree.Proofs.Chains
import TickTree.Proofs.Dispatches
import TickTree.Proofs.Sessions

/-!
# Chains cut short

An abort of an agent in the first tree of a chain takes it out of one tree after the other, ends the
visit of the task at the end of the chain, and puts it back rewound, from the last tree to the first
(`Forest.Spans.abort`). A removal takes it out of all of them and ends no visit
(`Forest.Spans.remove`).

Where only one tree is operated on, and links lead into all others (`Forest.Driven`), every agent is
suspended in a chain from that tree, if at all. So an abort or a removal in that tree leaves it
suspended nowhere (`Forest.Driven.unwinds`).
-/

namespace TickTree

variable {K A : Type} [DecidableEq K]

/-! ## Worlds -/

/-- Tables with the same keys are of the same size. -/
theorem Table.size_congr {κ ν : Type} [DecidableEq κ] {t t' : Table κ ν}
    (h : ∀ k, t'.get? k = t.get? k) : t'.size = t.size := by
  have hkeys : ∀ k, k ∈ t'.keys ↔ k ∈ t.keys := fun k => by
    rw [← Decidable.not_iff_not, ← get?_eq_none_iff, ← get?_eq_none_iff, h]
  have hperm := (List.perm_ext_iff_of_nodup t'.nodup t.nodup).2 hkeys
  simpa [size, keys] using hperm.length_eq

namespace World

/-- Nothing has changed around the trees, and nothing is told of. -/
structure SameAround (w w' : World K A) : Prop where
  registries : w'.registries = w.registries
  ambient : w'.ambient = w.ambient
  journal : w'.journal = w.journal

/-- Nothing about the trees has changed but what is kept of some agents in some of them. -/
structure TreesBut (changed : TreeId → K → Prop) (w w' : World K A) : Prop where
  running : ∀ t, (w'.tree t).running = (w.tree t).running
  poisoned : ∀ t, (w'.tree t).poisoned = (w.tree t).poisoned
  drawn : ∀ t, (w'.tree t).drawn = (w.tree t).drawn
  agent? : ∀ {t b}, ¬ changed t b → w'.agent? t b = w.agent? t b

/-- Nothing has changed, but that a tree may list its agents in another order. -/
structure Unchanged (w w' : World K A) : Prop where
  around : w.SameAround w'
  trees : w.TreesBut (fun _ _ => False) w'
  size : ∀ t, (w'.tree t).agents.size = (w.tree t).agents.size

/-- An agent is taken out of these trees. -/
def takeOut (ts : List TreeId) (a : K) (w : World K A) : World K A :=
  ts.foldl (fun w t => w.checkOut t a) w

variable {changed changed' : TreeId → K → Prop} {t : TreeId} {a : K} {w w' w'' : World K A}

omit [DecidableEq K] in
theorem SameAround.refl (w : World K A) : w.SameAround w := ⟨rfl, rfl, rfl⟩

theorem TreesBut.of_trees (h : ∀ t, w'.tree t = w.tree t) : w.TreesBut changed w' :=
  ⟨fun t => by rw [h], fun t => by rw [h], fun t => by rw [h], fun {t b} _ => by
    rw [World.agent?, World.agent?, h]⟩

theorem TreesBut.trans (h : w.TreesBut changed w') (h' : w'.TreesBut changed w'') :
    w.TreesBut changed w'' :=
  ⟨fun t => (h'.running t).trans (h.running t), fun t => (h'.poisoned t).trans (h.poisoned t),
    fun t => (h'.drawn t).trans (h.drawn t), fun hne => (h'.agent? hne).trans (h.agent? hne)⟩

theorem TreesBut.mono (h : w.TreesBut changed w') (hle : ∀ t b, changed t b → changed' t b) :
    w.TreesBut changed' w' :=
  ⟨h.running, h.poisoned, h.drawn, fun hne => h.agent? fun hc => hne (hle _ _ hc)⟩

theorem TreesBut.ready (h : w.TreesBut changed w') (hw : w.Ready t) : w'.Ready t :=
  ⟨(h.running t).trans hw.1, (h.poisoned t).trans hw.2⟩

theorem TreesBut.state (h : w.TreesBut changed w') {b : K} (hne : ¬ changed t b) :
    w'.state t b = w.state t b := by
  rw [World.state, World.state, h.agent? hne]

theorem treesBut_checkOut (w : World K A) (hchanged : changed t a) :
    w.TreesBut changed (w.checkOut t a) where
  running := project_modifyTree w t (p := (·.running)) fun _ => rfl
  poisoned := project_modifyTree w t (p := (·.poisoned)) fun _ => rfl
  drawn := project_modifyTree w t (p := (·.drawn)) fun _ => rfl
  agent? {u b} hne := by
    rw [agent?_checkOut, if_neg]
    rintro ⟨rfl, rfl⟩
    exact hne hchanged

theorem treesBut_checkIn (w : World K A) (hchanged : changed t a) (s : AgentState) :
    w.TreesBut changed (w.checkIn t a s) where
  running := project_modifyTree w t (p := (·.running)) fun _ => rfl
  poisoned := project_modifyTree w t (p := (·.poisoned)) fun _ => rfl
  drawn := project_modifyTree w t (p := (·.drawn)) fun _ => rfl
  agent? {u b} hne := by
    rw [agent?_checkIn, if_neg]
    rintro ⟨rfl, rfl⟩
    exact hne hchanged

/-- Taking an agent out of a tree and putting it back as it was changes nothing. -/
theorem unchanged_putBack {s : AgentState} (h : w.agent? t a = some s) :
    w.Unchanged ((w.checkOut t a).checkIn t a s) := by
  have hagent : ∀ u b, ((w.checkOut t a).checkIn t a s).agent? u b = w.agent? u b := by
    intro u b
    rw [agent?_checkIn, agent?_checkOut]
    split
    · rename_i hsame
      rw [← hsame.1, ← hsame.2, h]
    · rfl
  have hbut : w.TreesBut (fun u b => t = u ∧ a = b) ((w.checkOut t a).checkIn t a s) :=
    (treesBut_checkOut w ⟨rfl, rfl⟩).trans (treesBut_checkIn (w.checkOut t a) ⟨rfl, rfl⟩ s)
  exact ⟨⟨rfl, rfl, rfl⟩, ⟨hbut.running, hbut.poisoned, hbut.drawn, fun _ => hagent _ _⟩,
    fun u => Table.size_congr (hagent u)⟩

theorem Unchanged.refl (w : World K A) : w.Unchanged w :=
  ⟨.refl w, .of_trees fun _ => rfl, fun _ => rfl⟩

end World

namespace Forest

variable {F : Forest K A} {r t : TreeId} {a b : K} {ts : List TreeId} {w w' : World K A}

/-! ## Aborts -/

/-- An abort of an agent in a tree has cut short the chain of trees that the agent is suspended
in. -/
structure Unwinds (F : Forest K A) (r : TreeId) (a : K) (ts : List TreeId) (w w' : World K A) :
    Prop where
  /-- In the tree, if it knows the agent, and along the chain, the agent is back at the first
  instruction and not suspended, and its counters stay. -/
  rewound : ∀ t, t = r ∨ t ∈ ts → w'.agent? t a =
    (w.agent? t a).map fun s => { s with board := (w'.state t a).board }.rewind
  /-- Its board stays too, but for the last tree of the chain. -/
  boards : ∀ t, ts.getLast? ≠ some t → (w'.state t a).board = (w.state t a).board
  /-- Nothing else about the trees changes. -/
  trees : w.TreesBut (fun t b => b = a ∧ (t = r ∨ t ∈ ts)) w'
  /-- If there is no chain, nothing happens around the trees: no hook is called. -/
  silent : ts = [] → w.SameAround w'
  /-- Of all hooks, the finish hook of the task at the end of the chain is called, once and with
  Failure, while the agent is out of all trees of the chain. Apart from that nothing happens around
  the trees, and the last tree keeps the board that the hook leaves. -/
  finished : ∀ e, ts.getLast? = some e → ∃ task v,
    (F.tree e).awaited (w.state e a) = some (.task task) ∧
    (F.tickOf e a).endVisit .mute (w.state e a).cursor task .failure (w.state e a).board
      (w.takeOut ts a) = .done (w'.state e a).board v ∧
    v.SameAround w' ∧
    ∀ t b, w'.calls t b = w.calls t b ++
      if e = t ∧ a = b then closing t b (w.state e a).cursor task .failure else []

theorem Unwinds.free (h : F.Unwinds r a ts w w') (hspans : F.Spans a w r ts) : w'.Free a := by
  intro t ht
  by_cases hin : t = r ∨ t ∈ ts
  · rw [World.waits_iff, World.state, h.rewound t hin] at ht
    cases hagent : w.agent? t a <;> simp [hagent, AgentState.rewind] at ht
  · rw [World.waits_iff, h.trees.state fun hc => hin hc.2, ← World.waits_iff, hspans.waits] at ht
    exact hin (.inr ht)

/-- An abort of an agent that a tree does not know, or that is not suspended there. -/
theorem abort_free (hready : w.Ready r) (hs : (w.state r a).paused = false)
    (handler : Handler K A) :
    ∃ w', F.abort handler r a w = .done () w' ∧ F.Unwinds r a [] w w' ∧
      ((w.state r a).cursor = 0 → w.Unchanged w') := by
  cases hagent : w.agent? r a with
  | none =>
    refine ⟨w, abort_absent hready.2 hagent, ⟨?_, fun _ _ => rfl, .of_trees fun _ => rfl,
      fun _ => .refl w, fun e he => by cases he⟩, fun _ => .refl w⟩
    rintro t (rfl | ht)
    · rw [hagent]
      rfl
    · cases ht
  | some s =>
    rw [World.state_of_agent? hagent] at hs ⊢
    have hcancel := cancel_unpaused (F := F) handler (t := r) (a := a) hs (w.checkOut r a)
    have hsound : ((w.checkOut r a).tree r).poisoned = false := by simp [hready.2]
    have hagent' := World.agent?_checkIn_self (w.checkOut r a) r a s.rewind
    refine ⟨_, abort_of_cancel hready.2 hagent hcancel hsound, ⟨?_, fun t _ => ?_, ?_,
      fun _ => ⟨rfl, rfl, rfl⟩, fun e he => by cases he⟩, fun hcursor => ?_⟩
    · rintro t (rfl | ht)
      · rw [World.state_of_agent? hagent', hagent, hagent']
        rfl
      · cases ht
    · by_cases htr : r = t
      · subst htr
        rw [World.state_of_agent? hagent', World.state_of_agent? hagent]
        rfl
      · rw [World.state_checkIn_of_ne htr, World.state_checkOut htr]
    · exact (World.treesBut_checkOut w ⟨rfl, .inl rfl⟩).trans
        (World.treesBut_checkIn _ ⟨rfl, .inl rfl⟩ _)
    · have hrewound : s.rewind = s := by
        rw [AgentState.rewind, ← hcursor, ← hs]
      rw [hrewound]
      exact World.unchanged_putBack hagent

/-- The visit of the task that the agent is suspended on is ended. -/
theorem unwinds_task {task : RunnableTask K A} {board : Blackboard} {v : World K A}
    (hq : task.Asks Request.Quiet) (hagent : w.agent? r a = some (w.state r a))
    (hawaited : (F.tree r).awaited (w.state r a) = some (.task task))
    (hend : (F.tickOf r a).endVisit .mute (w.state r a).cursor task .failure (w.state r a).board
      (w.checkOut r a) = .done board v) :
    F.Unwinds r a [r] w (v.checkIn r a { w.state r a with board := board }.rewind) := by
  have htrees := Tick.endVisit_tree hq hend
  refine ⟨fun t ht => ?_, fun t ht => ?_, ?_, fun hnil => absurd hnil (by simp), fun e he => ?_⟩
  · obtain rfl : t = r := by simpa using ht
    rw [World.state_checkIn, World.agent?_checkIn_self, hagent]
    rfl
  · have hne : r ≠ t := fun htr => ht (by rw [htr]; rfl)
    rw [World.state_checkIn_of_ne hne, World.state, World.agent?, htrees]
    exact congrArg AgentState.board (World.state_checkOut hne)
  · exact ((World.treesBut_checkOut w ⟨rfl, .inl rfl⟩).trans (.of_trees htrees)).trans
      (World.treesBut_checkIn v ⟨rfl, .inl rfl⟩ _)
  · obtain rfl : r = e := by simpa using he
    rw [World.state_checkIn]
    exact ⟨task, v, hawaited, hend, ⟨rfl, rfl, rfl⟩, fun t b => Tick.endVisit_calls hq hend t b⟩

/-- Behind the link that the agent is suspended on, the chain is cut short while the agent is out of
the tree. -/
theorem Unwinds.link {u : TreeId} {w₁ : World K A} (hagent : w.agent? r a = some (w.state r a))
    (hrest : F.Chain a w u ts) (hne : ∀ t ∈ ts, r ≠ t)
    (h : F.Unwinds u a ts (w.checkOut r a) w₁) :
    F.Unwinds r a (r :: ts) w (w₁.checkIn r a (w.state r a).rewind) := by
  obtain ⟨tail, rfl⟩ := hrest.head
  have hlast : (r :: u :: tail).getLast? = (u :: tail).getLast? := List.getLast?_cons_cons
  refine ⟨fun t ht => ?_, fun t ht => ?_, ?_, fun hnil => absurd hnil (by simp), fun e he => ?_⟩
  · by_cases htr : t = r
    · subst htr
      rw [World.state_checkIn, World.agent?_checkIn_self, hagent]
      rfl
    · have hin := (List.mem_cons.1 (ht.resolve_left htr)).resolve_left htr
      have hother : ¬ (r = t ∧ a = a) := fun hsame => hne t hin hsame.1
      rw [World.state_checkIn_of_ne (hne t hin), World.agent?_checkIn, if_neg hother,
        h.rewound t (.inr hin), World.agent?_checkOut, if_neg hother]
  · by_cases htr : r = t
    · subst htr
      rw [World.state_checkIn]
      rfl
    · rw [World.state_checkIn_of_ne htr, h.boards t (hlast ▸ ht), World.state_checkOut htr]
  · refine ((World.treesBut_checkOut w ⟨rfl, .inl rfl⟩).trans (h.trees.mono fun t b hc => ?_)).trans
      (World.treesBut_checkIn w₁ ⟨rfl, .inl rfl⟩ _)
    exact ⟨hc.1, .inr (.tail r (hc.2.elim (fun htu => htu ▸ .head tail) id))⟩
  · rw [hlast] at he
    have hother := hne e (List.mem_of_getLast? he)
    obtain ⟨task, v, hawaited, hend, haround, hcalls⟩ := h.finished e he
    rw [World.state_checkOut hother] at hawaited hend hcalls
    rw [World.state_checkIn_of_ne hother]
    exact ⟨task, v, hawaited, hend, ⟨haround.registries, haround.ambient, haround.journal⟩, hcalls⟩

/-- An abort of an agent that is suspended in a chain from a tree. -/
theorem Chain.abort (hF : F.Descends) (hq : F.Asks Request.Quiet)
    (hready : ∀ t ∈ ts, w.Ready t) (h : F.Chain a w r ts) :
    ∃ n w', F.serve n (.abort r a) w = .done () w' ∧ F.Unwinds r a ts w w' := by
  induction ts generalizing r w with
  | nil => exact absurd rfl h.ne_nil
  | cons t rest ih =>
    obtain ⟨_, hhead⟩ := h.head
    obtain rfl : r = t := (List.cons.inj hhead).1.symm
    have hagent := (h.waits r (.head rest)).agent?
    have hsound : (w.tree r).poisoned = false := (hready r (.head rest)).2
    cases h with
    | task hawaited =>
      obtain ⟨i, hget, hop⟩ := Tree.awaited_inv hawaited
      have htask := Tick.quiet_task (hq.quiet r a) hget hop
      obtain ⟨board, v, hend⟩ := (F.tickOf r a).endVisit_answers (F.serve 0)
        (w.state r a).cursor htask .failure (w.state r a).board (w.checkOut r a)
      have hcancel : F.cancel (F.serve 0) r a (w.state r a) (w.checkOut r a) = .done board v := by
        rw [cancel, hawaited]
        exact hend
      have hsound₁ : (v.tree r).poisoned = false := by
        rw [Tick.endVisit_tree htask hend]
        simp [hsound]
      exact ⟨1, _, abort_of_cancel hsound hagent hcancel hsound₁,
        unwinds_task htask hagent hawaited hend⟩
    | @link _ link _ hawaited hrest =>
      have hne := hrest.ne hF hawaited
      have hready₁ : ∀ t ∈ rest, (w.checkOut r a).Ready t := fun t ht =>
        World.ready_checkOut (hready t (.tail r ht))
      obtain ⟨n, w₁, hserve, hunwinds⟩ :=
        ih hready₁ (hrest.same fun t ht => World.state_checkOut (hne t ht))
      have hcancel : F.cancel (F.serve n) r a (w.state r a) (w.checkOut r a) =
          .done (w.state r a).board w₁ := by
        rw [cancel, hawaited]
        simp only [hserve, Outcome.map, Outcome.bind_done]
      have hsound₁ : (w₁.tree r).poisoned = false := by
        rw [hunwinds.trees.poisoned]
        simp [hsound]
      exact ⟨n + 1, _, abort_of_cancel hsound hagent hcancel hsound₁,
        hunwinds.link hagent hrest hne⟩

/-- An abort of an agent in the tree from which it is suspended in a chain, if at all. -/
theorem Spans.abort (hF : F.Descends) (hq : F.Asks Request.Quiet) (hready : ∀ t, w.Ready t)
    (h : F.Spans a w r ts) : ∃ w', F.Answers (.abort r a) w () w' ∧ F.Unwinds r a ts w w' := by
  rcases h.cases with ⟨rfl, hfree⟩ | hchain
  · obtain ⟨w', habort, hunwinds, -⟩ :=
      abort_free (F := F) (hready r) (hfree.unpaused r) (F.serve 0)
    exact ⟨w', ⟨1, habort⟩, hunwinds⟩
  · obtain ⟨n, w', hserve, hunwinds⟩ := hchain.abort hF hq fun t _ => hready t
    exact ⟨w', ⟨n, hserve⟩, hunwinds⟩

/-! ## Removals -/

/-- A removal of an agent in a tree has discarded it in the trees that it is suspended in. -/
structure Discards (r : TreeId) (a : K) (ts : List TreeId) (w w' : World K A) : Prop where
  /-- The tree and the trees along the chain know nothing of the agent. -/
  gone : ∀ t, t = r ∨ t ∈ ts → w'.agent? t a = none
  /-- Nothing else about the trees changes. -/
  trees : w.TreesBut (fun t b => b = a ∧ (t = r ∨ t ∈ ts)) w'
  /-- Nothing happens around the trees: no hook is called. -/
  silent : w.SameAround w'

theorem Discards.free (h : Discards r a ts w w') (hspans : F.Spans a w r ts) : w'.Free a := by
  intro t ht
  by_cases hin : t = r ∨ t ∈ ts
  · have hagent := ht.agent?
    rw [h.gone t hin] at hagent
    cases hagent
  · rw [World.waits_iff, h.trees.state fun hc => hin hc.2, ← World.waits_iff, hspans.waits] at ht
    exact hin (.inr ht)

theorem discards_checkOut (w : World K A) (r : TreeId) (a : K) :
    Discards r a [r] w (w.checkOut r a) where
  gone t ht := by
    obtain rfl : t = r := by simpa using ht
    exact World.agent?_checkOut_self w t a
  trees := World.treesBut_checkOut w ⟨rfl, .inl rfl⟩
  silent := ⟨rfl, rfl, rfl⟩

theorem Discards.link {u : TreeId} (hrest : F.Chain a w u ts)
    (h : Discards u a ts (w.checkOut r a) w') : Discards r a (r :: ts) w w' := by
  obtain ⟨tail, rfl⟩ := hrest.head
  refine ⟨fun t ht => ?_, ?_, ⟨h.silent.registries, h.silent.ambient, h.silent.journal⟩⟩
  · by_cases hin : t ∈ u :: tail
    · exact h.gone t (.inr hin)
    · obtain rfl : t = r := ht.elim id fun hmem => (List.mem_cons.1 hmem).resolve_right hin
      have hnot : ¬ (a = a ∧ (t = u ∨ t ∈ u :: tail)) := fun hc =>
        hin (hc.2.elim (fun htu => htu ▸ .head tail) id)
      rw [h.trees.agent? hnot, World.agent?_checkOut_self]
  · refine (World.treesBut_checkOut w ⟨rfl, .inl rfl⟩).trans (h.trees.mono fun t b hc => ?_)
    exact ⟨hc.1, .inr (.tail r (hc.2.elim (fun htu => htu ▸ .head tail) id))⟩

/-- A removal of an agent that is suspended in a chain from a tree. -/
theorem Chain.remove (hF : F.Descends) (hready : ∀ t ∈ ts, w.Ready t) (h : F.Chain a w r ts) :
    ∃ n w', F.serve n (.remove r a) w = .done true w' ∧ Discards r a ts w w' := by
  induction ts generalizing r w with
  | nil => exact absurd rfl h.ne_nil
  | cons t rest ih =>
    obtain ⟨_, hhead⟩ := h.head
    obtain rfl : r = t := (List.cons.inj hhead).1.symm
    have hagent := (h.waits r (.head rest)).agent?
    have hsound : (w.tree r).poisoned = false := (hready r (.head rest)).2
    cases h with
    | task hawaited =>
      have hlink : ∀ link, (F.tree r).awaited (w.state r a) ≠ some (.subTree link) := by
        simp [hawaited]
      exact ⟨1, _, remove_unlinked hsound hagent hlink, discards_checkOut w r a⟩
    | @link _ link _ hawaited hrest =>
      have hready₁ : ∀ t ∈ rest, (w.checkOut r a).Ready t := fun t ht =>
        World.ready_checkOut (hready t (.tail r ht))
      obtain ⟨n, w₁, hserve, hdiscards⟩ :=
        ih hready₁ (hrest.same fun t ht => World.state_checkOut (hrest.ne hF hawaited t ht))
      exact ⟨n + 1, w₁, remove_linked hsound hagent hawaited hserve, hdiscards.link hrest⟩

/-- A removal of an agent from the tree from which it is suspended in a chain, if at all. -/
theorem Spans.remove (hF : F.Descends) (hready : ∀ t, w.Ready t) (h : F.Spans a w r ts) :
    ∃ w', F.Answers (.remove r a) w (w.agent? r a).isSome w' ∧ Discards r a ts w w' := by
  rcases h.cases with ⟨rfl, hfree⟩ | hchain
  · cases hagent : w.agent? r a with
    | none =>
      refine ⟨w, ⟨1, remove_absent (hready r).2 hagent⟩, fun t ht => ?_, .of_trees fun _ => rfl,
        .refl w⟩
      obtain rfl : t = r := by simpa using ht
      exact hagent
    | some s =>
      have hs : s.paused = false := World.state_of_agent? hagent ▸ hfree.unpaused r
      have hlink : ∀ link, (F.tree r).awaited s ≠ some (.subTree link) := by
        simp [Tree.awaited_unpaused hs]
      have hout := discards_checkOut w r a
      exact ⟨_, ⟨1, remove_unlinked (hready r).2 hagent hlink⟩,
        fun t ht => hout.gone t (ht.imp_right fun h => absurd h List.not_mem_nil),
        hout.trees.mono fun t b hc => ⟨hc.1, .inl (hc.2.elim id List.mem_singleton.1)⟩, hout.silent⟩
  · obtain ⟨n, w', hserve, hdiscards⟩ := hchain.remove hF fun t _ => hready t
    have hknown : (w.agent? r a).isSome = true := by
      obtain ⟨rest, rfl⟩ := hchain.head
      rw [(hchain.waits r (.head rest)).agent?]
      rfl
    rw [hknown]
    exact ⟨w', ⟨n, hserve⟩, hdiscards⟩

/-! ## One tree driven -/

end Forest

/-- A call ticks, aborts or removes agents in one tree only. It may edit boards anywhere. -/
def Call.From (r : TreeId) : Call K → Prop
  | .run t _ | .abort t _ | .remove t _ => t = r
  | .update .. => True

namespace Forest

variable {F : Forest K A} {r t : TreeId} {a b : K} {ts : List TreeId} {w w' : World K A}

/-- What becomes of fresh trees when one of them is operated on and none is poisoned. What lies
outside the trees may change in between. -/
inductive Driven (F : Forest K A) (r : TreeId) : World K A → Prop where
  | fresh {w : World K A} : (∀ t, w.Fresh t) → Driven F r w
  | operation {w w' : World K A} {c : Call K} {reply : c.Reply} : Driven F r w → c.From r →
      F.Answers c w reply w' → w'.Unpoisoned → Driven F r w'
  | outside {w w' : World K A} : Driven F r w → w'.trees = w.trees → Driven F r w'

/-- Nothing keeps any tree from ticking, and every agent is suspended in a chain from one tree, if
at all. -/
structure Rested (F : Forest K A) (r : TreeId) (w : World K A) : Prop where
  ready : ∀ t, w.Ready t
  spans : ∀ a, ∃ ts, F.Spans a w r ts

theorem rested_of_fresh (h : ∀ t, w.Fresh t) : F.Rested r w := by
  refine ⟨fun t => (h t).ready, fun a => ⟨[], spans_of_free (fun t => ?_) r⟩⟩
  rintro ⟨s, hs, -⟩
  rw [(h t).absent a] at hs
  cases hs

/-- An operation on one agent leaves the others where they are suspended. -/
theorem Rested.after (h : F.Rested r w) (hready : ∀ t, w.Ready t → w'.Ready t)
    (hothers : ∀ t b, b ≠ a → w'.state t b = w.state t b) (hspans : ∃ ts, F.Spans a w' r ts) :
    F.Rested r w' := by
  refine ⟨fun t => hready t (h.ready t), fun b => ?_⟩
  by_cases hb : b = a
  · exact hb ▸ hspans
  · obtain ⟨ts, hspans'⟩ := h.spans b
    exact ⟨ts, hspans'.same fun t => hothers t b hb⟩

theorem Rested.run (hF : F.Descends) (hq : F.Asks Request.Quiet) (h : F.Rested r w)
    {result : Except RunError Status} (hrun : F.Answers (.run r a) w result w') :
    F.Rested r w' := by
  obtain ⟨n, hserve⟩ := hrun
  obtain ⟨ts, hspans⟩ := h.spans a
  obtain ⟨hwithin, ts', hspans', -⟩ := serve_spans hF hq n (fun t _ => h.ready t) hspans hserve
  exact h.after hwithin.ready (fun t b hb => hwithin.state fun hc => hb hc.2) ⟨ts', hspans'⟩

theorem Rested.abort (hF : F.Descends) (hq : F.Asks Request.Quiet) (h : F.Rested r w)
    (habort : F.Answers (.abort r a) w () w') : F.Rested r w' := by
  obtain ⟨ts, hspans⟩ := h.spans a
  obtain ⟨v, habort', hunwinds⟩ := hspans.abort hF hq h.ready
  obtain ⟨-, rfl⟩ := habort.unique habort'
  exact h.after (fun _ => hunwinds.trees.ready)
    (fun t b hb => hunwinds.trees.state fun hc => hb hc.1)
    ⟨[], spans_of_free (hunwinds.free hspans) r⟩

theorem Rested.remove (hF : F.Descends) (h : F.Rested r w) {found : Bool}
    (hremove : F.Answers (.remove r a) w found w') : F.Rested r w' := by
  obtain ⟨ts, hspans⟩ := h.spans a
  obtain ⟨v, hremove', hdiscards⟩ := hspans.remove hF h.ready
  obtain ⟨-, rfl⟩ := hremove.unique hremove'
  exact h.after (fun _ => hdiscards.trees.ready)
    (fun t b hb => hdiscards.trees.state fun hc => hb hc.1)
    ⟨[], spans_of_free (hdiscards.free hspans) r⟩

/-- An edit of a board changes nothing about where agents are suspended. -/
theorem Rested.update {edit : Edit} (h : F.Rested r w) (hsound : w'.Unpoisoned)
    {reply : Except RunError EditResult} (hupdate : F.Answers (.update t a edit) w reply w') :
    F.Rested r w' := by
  obtain ⟨n, hserve⟩ := hupdate
  obtain ⟨board, rfl⟩ : ∃ board, w' = w.checkIn t a { w.state t a with board := board } := by
    cases n with
    | zero => cases hserve
    | succ n =>
      have hdone : Forest.update t a edit w = (reply, w') := by cases hserve; rfl
      cases update_cases hdone with
      | refused hpoisoned => simp [(h.ready t).2] at hpoisoned
      | died =>
        have hpoisoned := hsound t
        simp [poison] at hpoisoned
      | @edited board => exact ⟨board, rfl⟩
  have hbut : w.TreesBut (fun u b => u = t ∧ b = a)
      (w.checkIn t a { w.state t a with board := board }) :=
    World.treesBut_checkIn w ⟨rfl, rfl⟩ _
  have hstands : ∀ u, ((w.checkIn t a { w.state t a with board := board }).state u a).cursor =
        (w.state u a).cursor ∧
      ((w.checkIn t a { w.state t a with board := board }).state u a).paused =
        (w.state u a).paused := by
    intro u
    by_cases htu : t = u
    · subst htu
      rw [World.state_checkIn]
      exact ⟨rfl, rfl⟩
    · rw [World.state_checkIn_of_ne htu]
      exact ⟨rfl, rfl⟩
  obtain ⟨ts, hspans⟩ := h.spans a
  exact h.after (fun _ => hbut.ready) (fun u b hb => hbut.state fun hc => hb hc.2)
    ⟨ts, hspans.congr (fun u => (hstands u).1) fun u => (hstands u).2⟩

/-- Wherever operations on one tree have led, every agent is suspended in a chain from it. -/
theorem Driven.rested (hF : F.Descends) (hq : F.Asks Request.Quiet) (h : F.Driven r w) :
    F.Rested r w := by
  induction h with
  | fresh hfresh => exact rested_of_fresh hfresh
  | @operation w w' c reply _ hfrom hanswers hsound ih =>
    cases c with
    | run t b =>
      obtain rfl : t = r := hfrom
      exact ih.run hF hq hanswers
    | abort t b =>
      obtain rfl : t = r := hfrom
      exact ih.abort hF hq hanswers
    | remove t b =>
      obtain rfl : t = r := hfrom
      exact ih.remove hF hanswers
    | update t b edit => exact ih.update hsound hanswers
  | outside _ htrees ih =>
    refine ⟨fun t => ?_, fun a => ?_⟩
    · rw [World.Ready, World.tree, htrees]
      exact ih.ready t
    · obtain ⟨ts, hspans⟩ := ih.spans a
      exact ⟨ts, hspans.same fun t => World.state_of_trees htrees t a⟩

/-- Cancelling reaches the whole chain. Where one tree is operated on, and links lead into the
others, an agent is suspended in the trees of one chain from that tree, or in none: a tree other
than the first is among them exactly if the agent is suspended on a link to it. An abort in the
first tree unwinds the chain, and another one changes nothing. A removal discards the agent along
the chain. After either the agent is suspended nowhere. -/
theorem Driven.unwinds (hF : F.Descends) (hq : F.Asks Request.Quiet) (h : F.Driven r w) (a : K) :
    ∃ ts, (∀ ts', F.Spans a w r ts' ↔ ts' = ts) ∧ (ts = [] ↔ ¬ w.Waits a r) ∧
      (∀ u, (∃ t link, (F.tree t).awaited (w.state t a) = some (.subTree link) ∧ link.tree = u) ↔
        w.Waits a u ∧ u ≠ r) ∧
      (∃ w', F.Answers (.abort r a) w () w' ∧ F.Unwinds r a ts w w' ∧ w'.Free a ∧
        ∃ w'', F.Answers (.abort r a) w' () w'' ∧ w'.Unchanged w'') ∧
      ∃ w', F.Answers (.remove r a) w (w.agent? r a).isSome w' ∧ Discards r a ts w w' ∧
        w'.Free a := by
  obtain ⟨hready, hspans⟩ := h.rested hF hq
  obtain ⟨ts, hspans⟩ := hspans a
  have hunique : ∀ ts', F.Spans a w r ts' ↔ ts' = ts :=
    fun ts' => ⟨fun hspans' => hspans'.unique hspans, fun hts => hts ▸ hspans⟩
  obtain ⟨w', habort, hunwinds⟩ := hspans.abort hF hq hready
  have hfree := hunwinds.free hspans
  have hcursor : (w'.state r a).cursor = 0 := by
    rw [World.state, hunwinds.rewound r (.inl rfl)]
    cases w.agent? r a <;> rfl
  obtain ⟨w'', habort', -, hunchanged⟩ :=
    abort_free (F := F) (hunwinds.trees.ready (hready r)) (hfree.unpaused r) (F.serve 0)
  obtain ⟨v, hremove, hdiscards⟩ := hspans.remove hF hready
  exact ⟨ts, hunique, hspans.eq_nil_iff, hspans.linked_iff hF,
    ⟨w', habort, hunwinds, hfree, w'', ⟨1, habort'⟩, hunchanged hcursor⟩,
    v, hremove, hdiscards, hdiscards.free hspans⟩

/-- An agent is suspended on a task two links away from the tree that is ticked. -/
theorem Driven.unwinds_twice_linked :
    let wait : RunnableTask Unit Unit :=
      ⟨"wait", none, fun _ => .done (.ok .running), some fun _ _ => .done ()⟩
    let F : Forest Unit Unit :=
      ⟨[{ program := ⟨[⟨.task wait, 1, 2⟩]⟩ }, { program := ⟨[⟨.subTree ⟨0, 1⟩, 1, 2⟩]⟩ },
        { program := ⟨[⟨.subTree ⟨1, 1⟩, 1, 2⟩]⟩ }]⟩
    F.Descends ∧ F.Asks Request.Quiet ∧ ∃ w, F.Driven 2 w ∧ F.Spans () w 2 [2, 1, 0] ∧
      ∃ w', F.Answers (.abort 2 ()) w () w' ∧ w'.Free () ∧
        w'.calls 0 () = w.calls 0 () ++ [.call (.finished 0 () 0 "wait" .failure)] := by
  intro wait F
  have hF : F.Descends := by
    intro t index i link hget hop
    match t, index, hget with
    | 0, 0, hget => cases hget; cases hop
    | 1, 0, hget | 2, 0, hget => cases hget; cases hop; decide
    | 0, index + 1, hget | 1, index + 1, hget | 2, index + 1, hget | t + 3, index, hget =>
      cases hget
  have hwait : wait.Asks Request.Quiet := by
    refine ⟨fun hstart => ?_, fun _ => .done _, fun hfinish _ _ => ?_⟩
    · cases hstart
    · cases hfinish
      exact .done ()
  have hq : F.Asks Request.Quiet := by
    intro t index task yes no hget
    match t, index, hget with
    | 0, 0, hget => cases hget; exact hwait
    | 1, 0, hget | 2, 0, hget => cases hget
    | 0, index + 1, hget | 1, index + 1, hget | 2, index + 1, hget | t + 3, index, hget =>
      cases hget
  let w₀ : World Unit Unit := { ambient := () }
  have hfresh : ∀ t, w₀.Fresh t := fun t => ⟨⟨rfl, rfl⟩, fun _ => rfl⟩
  let suspended : TreeState Unit := { agents := .ofList [((), { paused := true })] }
  let w : World Unit Unit :=
    { trees := .ofList [(2, suspended), (1, suspended), (0, suspended)], ambient := () }
  obtain ⟨w₁, hrun, htrees⟩ : ∃ w₁, F.Answers (.run 2 ()) w₀ (.ok .running) w₁ ∧
      w.trees = w₁.trees := ⟨_, ⟨4, rfl⟩, rfl⟩
  have hchain : F.Chain () w 2 [2, 1, 0] := .link rfl (.link rfl (.task rfl))
  have hdriven : F.Driven 2 w := .outside (.operation (c := .run 2 ()) (.fresh hfresh)
    rfl hrun fun t => (((rested_of_fresh hfresh).run hF hq hrun).ready t).2) htrees
  obtain ⟨ts, hspans, -, -, ⟨w', habort, hunwinds, hfree, -⟩, -⟩ := Driven.unwinds hF hq hdriven ()
  obtain rfl : ts = [2, 1, 0] := by
    rcases ((hspans ts).2 rfl).cases with ⟨-, hfree⟩ | hchain'
    · exact absurd (hchain.waits 2 (.head _)) (hfree 2)
    · exact hchain'.unique hchain
  refine ⟨hF, hq, w, hdriven, (hspans _).2 rfl, w', habort, hfree, ?_⟩
  obtain ⟨task, v, hawaited, -, -, hcalls⟩ := hunwinds.finished 0 rfl
  obtain rfl : task = wait := by cases hawaited; rfl
  exact hcalls 0 ()

end Forest

end TickTree

import Mathlib.Data.List.Forall2
import TickTree.Proofs.Bounds
import TickTree.Proofs.Congruence
import TickTree.Proofs.Persistence
import TickTree.Proofs.Relocation

/-!
# Left-over counters

A rewound agent keeps the rounds of all counters, but none of them is read before it is set to
zero: at the first instruction of a compiled program no counter is live
(`Node.not_live_of_compile`). So counters never matter to an agent that stands there unsuspended
(`Forest.leftovers_never_matter`).

Two states are akin if they differ only in counters that are not live where the agent stands, and
two worlds are if all that their trees hold is (`World.Akin`). An agent may be suspended in the
middle of a loop, so what is proved of all operations is that worlds stay akin
(`Forest.serve_akin`). Counters that are live agree step by step: going on keeps them so, and a
counter is set and counted in both.
-/

namespace TickTree

/-! ## Related tables -/

section

variable {κ ν : Type} {R : ν → ν → Prop}

/-- Entries of the same keys in the same order, with related values. -/
abbrev Entries.Related (R : ν → ν → Prop) : List (κ × ν) → List (κ × ν) → Prop :=
  List.Forall₂ fun e e' => e.1 = e'.1 ∧ R e.2 e'.2

/-- Two tables have the same keys in the same order, and related values. -/
def Table.Related (R : ν → ν → Prop) (x y : Table κ ν) : Prop :=
  Entries.Related R x.entries y.entries

namespace Entries.Related

variable {l l' : List (κ × ν)}

theorem symm (hR : ∀ v v', R v v' → R v' v) (h : Related R l l') : Related R l' l :=
  h.flip.imp fun _ _ he => ⟨he.1.symm, hR _ _ he.2⟩

variable [DecidableEq κ] (k : κ)

theorem lookup (h : Related R l l') : Option.Rel R (Entries.lookup k l) (Entries.lookup k l') := by
  induction h with
  | nil => exact .none
  | @cons e e' _ _ he _ ih =>
    obtain ⟨x, v⟩ := e
    obtain ⟨x', v'⟩ := e'
    obtain ⟨rfl, hv⟩ : x = x' ∧ R v v' := he
    simp only [Entries.lookup]
    split
    · exact .some hv
    · exact ih

theorem put (h : Related R l l') {v v' : ν} (hv : R v v') :
    Related R (Entries.put k v l) (Entries.put k v' l') := by
  induction h with
  | nil => exact .cons ⟨rfl, hv⟩ .nil
  | @cons e e' _ _ he hrest ih =>
    obtain ⟨x, u⟩ := e
    obtain ⟨x', u'⟩ := e'
    obtain ⟨rfl, hu⟩ : x = x' ∧ R u u' := he
    simp only [Entries.put]
    split
    · exact .cons ⟨rfl, hv⟩ hrest
    · exact .cons ⟨rfl, hu⟩ ih

theorem drop (h : Related R l l') : Related R (Entries.drop k l) (Entries.drop k l') := by
  induction h with
  | nil => exact .nil
  | @cons e e' _ _ he _ ih =>
    obtain ⟨x, u⟩ := e
    obtain ⟨x', u'⟩ := e'
    obtain ⟨rfl, hu⟩ : x = x' ∧ R u u' := he
    simp only [Entries.drop]
    split
    · exact ih
    · exact .cons ⟨rfl, hu⟩ ih

end Entries.Related

theorem Table.Related.refl (hR : ∀ v, R v v) (x : Table κ ν) : x.Related R x :=
  List.forall₂_same.2 fun e _ => ⟨rfl, hR e.2⟩

theorem Table.Related.set_of_get? [DecidableEq κ] (hR : ∀ v, R v v) {x : Table κ ν} {k : κ}
    {v v' : ν} (h : x.get? k = some v) (hv : R v v') : x.Related R (x.set k v') := by
  have hset := Entries.Related.put k (Table.Related.refl hR x) hv
  rwa [Entries.put_of_lookup h] at hset

end

/-! ## Akin states -/

section

variable {K A α β : Type}

/-- The counters that are live at an index have the same rounds. -/
abbrev Program.AgreeLive (p : Program K A) (j : Nat) (s s' : AgentState) : Prop :=
  p.Agree id j s s'

/-- Two states of an agent differ only in counters that are not live where it stands. -/
structure AgentState.Akin (p : Program K A) (s s' : AgentState) : Prop where
  cursor : s'.cursor = s.cursor
  paused : s'.paused = s.paused
  board : s'.board = s.board
  agree : p.AgreeLive s.cursor s s'

/-- The states of a tree are akin. -/
structure TreeState.Akin (p : Program K A) (x y : TreeState K) : Prop where
  agents : x.agents.Related (AgentState.Akin p) y.agents
  running : y.running = x.running
  poisoned : y.poisoned = x.poisoned
  drawn : y.drawn = x.drawn

/-- Two worlds agree but for what their trees hold of agents, and there the states are akin. -/
structure World.Akin (F : Forest K A) (w v : World K A) : Prop where
  trees : ∀ t, (w.tree t).Akin (F.tree t).program (v.tree t)
  registries : v.registries = w.registries
  ambient : v.ambient = w.ambient
  journal : v.journal = w.journal

/-- No counter is live at the first instruction. -/
def Program.Fresh (p : Program K A) : Prop := ∀ c, ¬ p.Live c 0

/-- The programs of all trees begin anew at their first instruction. -/
def Forest.Fresh (F : Forest K A) : Prop := ∀ t, (F.tree t).program.Fresh

theorem Forest.fresh_of_compiled {F : Forest K A}
    (hF : ∀ t < F.trees.length, ∃ root, compile root = .ok (F.tree t).program) : F.Fresh := by
  intro t c hlive
  by_cases ht : t < F.trees.length
  · obtain ⟨root, hroot⟩ := hF t ht
    exact Node.not_live_of_compile hroot c hlive
  · have hnone : F.tree t = {} := by simp [Forest.tree, ht]
    rw [hnone] at hlive
    exact absurd hlive.lt_length (Nat.not_lt_zero c)

theorem AgentState.Akin.symm {p : Program K A} {s s' : AgentState} (h : s.Akin p s') :
    s'.Akin p s := by
  refine ⟨h.cursor.symm, h.paused.symm, h.board.symm, fun c hlive => ?_⟩
  rw [h.cursor] at hlive
  exact (h.agree c hlive).symm

theorem AgentState.Akin.refl (p : Program K A) (s : AgentState) : s.Akin p s :=
  ⟨rfl, rfl, rfl, fun _ _ => rfl⟩

/-- Where no counter is live, two states that stand alike with the same board are akin. -/
theorem AgentState.Akin.of_fresh {p : Program K A} (hp : p.Fresh) {s s' : AgentState}
    (hs : s.standing = (0, false)) (hs' : s'.standing = (0, false)) (hboard : s'.board = s.board) :
    s.Akin p s' := by
  obtain ⟨hcursor, hpaused⟩ := Prod.mk.inj hs
  obtain ⟨hcursor', hpaused'⟩ := Prod.mk.inj hs'
  refine ⟨hcursor'.trans hcursor.symm, hpaused'.trans hpaused.symm, hboard, fun c hlive => ?_⟩
  rw [hcursor] at hlive
  exact absurd hlive (hp c)

theorem AgentState.Akin.rewind {p : Program K A} (hp : p.Fresh) {s s' : AgentState}
    (hboard : s'.board = s.board) : s.rewind.Akin p s'.rewind :=
  .of_fresh hp rfl rfl hboard

namespace World.Akin

variable {F : Forest K A} {w v : World K A}

theorem refl (F : Forest K A) (w : World K A) : w.Akin F w :=
  ⟨fun _ => ⟨.refl (.refl _) _, rfl, rfl, rfl⟩, rfl, rfl, rfl⟩

theorem symm (h : w.Akin F v) : v.Akin F w where
  trees t :=
    have ht := h.trees t
    ⟨ht.agents.symm fun _ _ hs => hs.symm, ht.running.symm, ht.poisoned.symm, ht.drawn.symm⟩
  registries := h.registries.symm
  ambient := h.ambient.symm
  journal := h.journal.symm

theorem log (h : w.Akin F v) (e : Event K) : (w.log e).Akin F (v.log e) :=
  ⟨h.trees, h.registries, h.ambient, congrArg (e :: ·) h.journal⟩

theorem modifyTree (h : w.Akin F v) (t : TreeId) (f g : TreeState K → TreeState K)
    (hfg : ∀ {x y}, TreeState.Akin (F.tree t).program x y →
      (f x).Akin (F.tree t).program (g y)) :
    (w.modifyTree t f).Akin F (v.modifyTree t g) := by
  refine ⟨fun u => ?_, h.registries, h.ambient, h.journal⟩
  rw [tree_modifyTree, tree_modifyTree]
  split
  · rename_i htu
    subst htu
    exact hfg (h.trees t)
  · exact h.trees u

theorem mark (h : w.Akin F v) (t : TreeId) (running : Bool) :
    (w.modifyTree t fun s => { s with running := running }).Akin F
      (v.modifyTree t fun s => { s with running := running }) :=
  h.modifyTree t _ _ fun hxy => ⟨hxy.agents, rfl, hxy.poisoned, hxy.drawn⟩

theorem enter (h : w.Akin F v) (t : TreeId) (a : K) : (w.enter t a).Akin F (v.enter t a) :=
  (h.mark t true).log _

theorem leave (h : w.Akin F v) (t : TreeId) (a : K) (r : Except RunError Status) :
    (w.leave t a r).Akin F (v.leave t a r) := (h.mark t false).log _

theorem draw (h : w.Akin F v) (t : TreeId) (drawn : Nat) :
    (w.modifyTree t fun s => { s with drawn := drawn }).Akin F
      (v.modifyTree t fun s => { s with drawn := drawn }) :=
  h.modifyTree t _ _ fun hxy => ⟨hxy.agents, hxy.running, hxy.poisoned, rfl⟩

theorem poison (h : w.Akin F v) (t : TreeId) : (Forest.poison t w).Akin F (Forest.poison t v) :=
  h.modifyTree t _ _ fun hxy => ⟨hxy.agents, hxy.running, rfl, hxy.drawn⟩

variable [DecidableEq K]

theorem agent? (h : w.Akin F v) (t : TreeId) (a : K) :
    Option.Rel (AgentState.Akin (F.tree t).program) (w.agent? t a) (v.agent? t a) :=
  (h.trees t).agents.lookup a

theorem state (h : w.Akin F v) (t : TreeId) (a : K) :
    (w.state t a).Akin (F.tree t).program (v.state t a) := by
  have hagent := h.agent? t a
  rw [World.state, World.state]
  generalize w.agent? t a = x at hagent
  generalize v.agent? t a = y at hagent
  cases hagent with
  | some hs => exact hs
  | none => exact .refl _ _

theorem view (h : w.Akin F v) (t : TreeId) (a : K) : w.view t a = v.view t a := by
  have ht := h.trees t
  have hsize : (v.tree t).agents.size = (w.tree t).agents.size :=
    (List.Forall₂.length_eq ht.agents).symm
  have hagent := h.agent? t a
  rw [World.view, World.view, ht.running, ht.poisoned, hsize]
  generalize w.agent? t a = x at hagent
  generalize v.agent? t a = y at hagent
  cases hagent with
  | none => rfl
  | some hs =>
    obtain ⟨hcursor, hpaused, hboard, -⟩ := hs
    cases (w.tree t).poisoned <;> simp [hcursor, hpaused, hboard]

theorem checkOut (h : w.Akin F v) (t : TreeId) (a : K) :
    (w.checkOut t a).Akin F (v.checkOut t a) :=
  h.modifyTree t _ _ fun hxy => ⟨hxy.agents.drop a, hxy.running, hxy.poisoned, hxy.drawn⟩

theorem checkIn (h : w.Akin F v) (t : TreeId) (a : K) {s s' : AgentState}
    (hs : s.Akin (F.tree t).program s') : (w.checkIn t a s).Akin F (v.checkIn t a s') :=
  h.modifyTree t _ _ fun hxy => ⟨hxy.agents.put a hs, hxy.running, hxy.poisoned, hxy.drawn⟩

/-- Another state may be put in the place of one that it is akin to. -/
theorem checkIn_of_agent? {t : TreeId} {a : K} {s s' : AgentState} (hagent : w.agent? t a = some s)
    (hs : s.Akin (F.tree t).program s') : w.Akin F (w.checkIn t a s') := by
  refine ⟨fun u => ?_, rfl, rfl, rfl⟩
  by_cases htu : t = u
  · subst htu
    rw [tree_checkIn]
    exact ⟨Table.Related.set_of_get? (.refl _) hagent hs, rfl, rfl, rfl⟩
  · rw [tree_checkIn_of_ne w a s' htu]
    exact (refl F w).trees u

/-- Hooks cannot tell worlds apart that are akin. -/
theorem congruence (F : Forest K A) : World.Congruence (World.Akin F) where
  ambient h := h.ambient.symm
  registry h r := by rw [World.registry, World.registry, h.registries]
  view := view
  setAmbient h _ := ⟨h.trees, h.registries, rfl, h.journal⟩
  setRegistry h id r :=
    ⟨h.trees, congrArg (fun x : Table RegistryId Registry => x.set id r) h.registries, h.ambient,
      h.journal⟩
  log := log

end World.Akin

/-! ## Steps of a walk -/

/-- Two computations come to related answers in related worlds, or both are cut off there. -/
inductive Outcome.Paired {σ : Type} (Q : α → β → Prop) (R : σ → σ → Prop) :
    Outcome σ α → Outcome σ β → Prop where
  | done {a : α} {b : β} {s s' : σ} : Q a b → R s s' → Paired Q R (.done a s) (.done b s')
  | cutOff {s s' : σ} : R s s' → Paired Q R (.cutOff s) (.cutOff s')

namespace Outcome.Paired

variable {σ α' β' : Type} {Q : α → β → Prop} {Q' : α' → β' → Prop} {R : σ → σ → Prop}
  {o : Outcome σ α} {p : Outcome σ β}

theorem of_alike {o p : Outcome σ α} (h : Outcome.Alike R o p) : Paired (· = ·) R o p := by
  cases h with
  | done hR => exact .done rfl hR
  | cutOff hR => exact .cutOff hR

theorem bind {f : α → σ → Outcome σ α'} {g : β → σ → Outcome σ β'} (h : Paired Q R o p)
    (hnext : ∀ a b s s', Q a b → R s s' → Paired Q' R (f a s) (g b s')) :
    Paired Q' R (o.bind f) (p.bind g) := by
  cases h with
  | done hQ hR => exact hnext _ _ _ _ hQ hR
  | cutOff hR => exact .cutOff hR

theorem map {f : α → α'} {g : β → β'} (h : Paired Q R o p)
    (himp : ∀ a b, Q a b → Q' (f a) (g b)) : Paired Q' R (o.map f) (p.map g) :=
  h.bind fun a b _ _ hQ hR => .done (himp a b hQ) hR

end Outcome.Paired

/-- What an instruction at an index comes to in two states that are akin there. -/
inductive Move.Akin (p : Program K A) (j : Nat) : Move × AgentState → Move × AgentState → Prop where
  | goto {k : Nat} {s s' : AgentState} : s'.board = s.board → p.AgreeLive k s s' →
      Akin p j (.goto k, s) (.goto k, s')
  | suspend {s s' : AgentState} : s'.board = s.board → p.AgreeLive j s s' →
      Akin p j (.suspend, s) (.suspend, s')
  | stop {e : RunError} {s s' : AgentState} : s'.board = s.board →
      Akin p j (.stop e, s) (.stop e, s')

/-- Two walks stand alike, with states that are akin there. -/
structure Frame.Akin (p : Program K A) (f g : Frame) : Prop where
  cursor : g.cursor = f.cursor
  resumed : g.resumed = f.resumed
  spent : g.spent = f.spent
  board : g.state.board = f.state.board
  agree : p.AgreeLive f.cursor f.state g.state

/-- Two walks go on alike, or have ended alike. -/
inductive Progress.Akin (p : Program K A) : Progress → Progress → Prop where
  | underway {f g : Frame} : f.Akin p g → Akin p (.underway f) (.underway g)
  | ended {result : Except RunError Status} {s s' : AgentState} : s.Akin p s' →
      Akin p (.ended result s) (.ended result s')

theorem Frame.Akin.begin {p : Program K A} {s s' : AgentState} (h : s.Akin p s') :
    (Frame.begin s).Akin p (Frame.begin s') :=
  ⟨h.cursor, h.paused, rfl, h.board, h.agree.of_counters rfl rfl⟩

theorem Frame.Akin.follow {p : Program K A} (hp : p.Fresh) {f g : Frame} (h : f.Akin p g)
    {a b : Move × AgentState} (hab : Move.Akin p f.cursor a b) :
    Progress.Akin p (Tick.follow f a) (Tick.follow g b) := by
  cases hab with
  | goto hboard hagree =>
    exact .underway ⟨rfl, rfl, congrArg (· + 1) h.spent, hboard, hagree⟩
  | suspend hboard hagree =>
    exact .ended ⟨h.cursor, rfl, hboard, hagree.of_counters rfl rfl⟩
  | stop hboard => exact .ended (.rewind hp hboard)

/-- A task suspends where its counters agree, or goes on to where they still do. -/
theorem Move.Akin.ofStatus {p : Program K A} {j : Nat} {i : Instruction Nat K A}
    (hget : p.get? j = some i) (hop : ∀ c, i.op ≠ .repeatStart c) {s s' : AgentState}
    (hagree : p.AgreeLive j s s') (hboard : s'.board = s.board) (status : Status) :
    Move.Akin p j (.ofStatus i status, s) (.ofStatus i status, s') := by
  rw [Move.ofStatus]
  split
  · exact .goto hboard (hagree.next hget hop (i.exit_mem_nexts status))
  · exact .suspend hboard hagree

namespace Tick

variable [DecidableEq K] {tick : Tick K A} {F : Forest K A} {handler : Handler K A}

theorem dispatch_akin (hh : handler.Respects (World.Akin F)) {j : Nat} (resumed : Bool)
    {i : Instruction Nat K A} (hget : tick.tree.program.get? j = some i) {s s' : AgentState}
    (hboard : s'.board = s.board) (hagree : tick.tree.program.AgreeLive j s s') {w v : World K A}
    (h : w.Akin F v) :
    Outcome.Paired (Move.Akin tick.tree.program j) (World.Akin F)
      (tick.dispatch handler j resumed i s w) (tick.dispatch handler j resumed i s' v) := by
  obtain ⟨op, yes, no⟩ := i
  cases op with
  | task task =>
    have hvisit := tick.visit_respects (World.Akin.congruence F) hh j task resumed s.board w v h
    rw [dispatch, dispatch, hboard]
    refine (Outcome.Paired.of_alike hvisit).map ?_
    rintro answer _ rfl
    have hkept : tick.tree.program.AgreeLive j { s with board := answer.2 }
        { s' with board := answer.2 } := hagree.of_counters rfl rfl
    exact .ofStatus hget (by simp) hkept rfl answer.1
  | query q =>
    have hregistry : tick.tree.registry.map v.registry = tick.tree.registry.map w.registry :=
      Option.map_congr fun r _ => ((World.Akin.congruence F).registry h r).symm
    simp only [dispatch, hregistry, hboard]
    cases q.find s.board (tick.tree.registry.map w.registry) with
    | error e => exact .done (.stop hboard) (h.log _)
    | ok found =>
      have hyes := hagree.next hget (by simp) (.head _)
      have hno := hagree.next hget (by simp) (.tail _ (.head _))
      cases found with
      | none => exact .done (.goto hboard hno) (h.log _)
      | some b =>
        cases b with
        | true => exact .done (.goto hboard hyes) h
        | false => exact .done (.goto hboard hno) h
  | subTree link =>
    rw [dispatch, dispatch]
    refine (Outcome.Paired.of_alike (hh (.run link.tree tick.agent) w v h)).bind ?_
    rintro result _ w v rfl h
    cases result with
    | ok status => exact .done (.ofStatus hget (by simp) hagree hboard status) h
    | error e => exact .done (.stop hboard) (h.log _)
  | randomBranch table =>
    cases table with
    | nil => exact .done (.stop hboard) h
    | cons first rest =>
      have hdrawn : (v.tree tick.id).drawn = (w.tree tick.id).drawn := (h.trees tick.id).drawn
      simp only [dispatch, hdrawn]
      refine .done (.goto hboard (hagree.next hget (by simp) ?_)) ((h.draw tick.id _).log _)
      exact .tail _ (.tail _ (getD_mem_table first rest _))
  | repeatStart c =>
    refine .done (.goto hboard (.setRounds (fun _ _ heq => heq) 0 fun d hlive hdc => ?_)) h
    refine hagree d (.before hget (fun heq => hdc ?_) (.head _) hlive)
    cases heq
    rfl
  | repeatCounter goal body =>
    have hrounds : s'.rounds j = s.rounds j := hagree j (.here hget rfl)
    simp only [dispatch, hrounds]
    refine .done (.goto hboard (.setRounds (fun _ _ heq => heq) _ fun d hlive _ => ?_)) h
    refine hagree d (.before hget (by simp) ?_ hlive)
    split
    · exact .head _
    · exact .tail _ (.tail _ (.head _))
  | hangingSucceed =>
    exact .done (.goto hboard (hagree.next hget (by simp) (.head _))) h
  | hangingFail =>
    exact .done (.goto hboard (hagree.next hget (by simp) (.tail _ (.head _)))) h

/-- A step of a walk goes on alike. -/
theorem advance_akin (hp : tick.tree.program.Fresh) (hh : handler.Respects (World.Akin F))
    {f g : Frame} (hfg : f.Akin tick.tree.program g) {w v : World K A} (h : w.Akin F v) :
    Outcome.Paired (Progress.Akin tick.tree.program) (World.Akin F)
      (tick.advance handler f w) (tick.advance handler g v) := by
  rw [advance, advance, hfg.cursor]
  cases hget : tick.tree.program.get? f.cursor with
  | none => exact .done (.ended (.rewind hp hfg.board)) h
  | some i =>
    have hspent : tick.exhausted g = tick.exhausted f := by rw [exhausted, exhausted, hfg.spent]
    simp only [hspent, hfg.resumed]
    cases tick.exhausted f with
    | some limit => exact .done (.ended (.rewind hp hfg.board)) (h.log _)
    | none =>
      exact (dispatch_akin hh f.resumed hget hfg.board hfg.agree (h.log _)).map
        fun _ _ hmove => hfg.follow hp hmove

theorem walk_akin (hp : tick.tree.program.Fresh) (hh : handler.Respects (World.Akin F)) (n : Nat)
    {f g : Frame} (hfg : f.Akin tick.tree.program g) {w v : World K A} (h : w.Akin F v) :
    Outcome.Paired (Progress.Akin tick.tree.program) (World.Akin F)
      (tick.walk handler n f w) (tick.walk handler n g v) := by
  induction n generalizing f g w v with
  | zero => exact .done (.underway hfg) h
  | succ n ih =>
    rw [walk_succ, walk_succ]
    refine (advance_akin hp hh hfg h).bind ?_
    intro p q w v hpq h
    cases hpq with
    | underway hfg => exact ih hfg h
    | ended hs => exact .done (.ended hs) h

theorem perform_akin (hp : tick.tree.program.Fresh) (hh : handler.Respects (World.Akin F))
    (bound : Nat) {s s' : AgentState} (hs : s.Akin tick.tree.program s') {w v : World K A}
    (h : w.Akin F v) :
    Outcome.Paired (fun x y => y.1 = x.1 ∧ x.2.Akin tick.tree.program y.2) (World.Akin F)
      (tick.perform handler bound s w) (tick.perform handler bound s' v) := by
  rw [perform, perform, hs.cursor]
  split
  · exact .done ⟨rfl, .rewind hp hs.board⟩ h
  · have hwalk := walk_akin hp hh bound (.begin hs) h
    generalize tick.walk handler bound (.begin s) w = o at hwalk
    generalize tick.walk handler bound (.begin s') v = o' at hwalk
    cases hwalk with
    | cutOff h => exact .cutOff h
    | done hpq h =>
      cases hpq with
      | underway _ => exact .cutOff h
      | ended hs => exact .done ⟨rfl, hs⟩ h

end Tick

/-! ## Operations -/

namespace Forest

variable [DecidableEq K] {F : Forest K A} {handler : Handler K A}

theorem run_akin (hF : F.Fresh) (hh : handler.Respects (World.Akin F)) (bound : Nat) (t : TreeId)
    (a : K) : Respects (World.Akin F) (F.run handler bound t a) := by
  intro w v h
  have ht := h.trees t
  rw [run_eq, run_eq, ht.running, ht.poisoned]
  split
  · exact .done (h.log _)
  split
  · exact .done ((h.enter t a).leave t a _)
  have hfresh : (F.tickOf t a).tree.program.Fresh := hF t
  have hperform := Tick.perform_akin hfresh hh bound (h.state t a) ((h.enter t a).checkOut t a)
  generalize (F.tickOf t a).perform handler bound (w.state t a) _ = o at hperform
  generalize (F.tickOf t a).perform handler bound (v.state t a) _ = o' at hperform
  cases hperform with
  | cutOff h => exact .cutOff h
  | @done x y w₁ v₁ hxy h =>
    obtain ⟨result, s⟩ := x
    obtain ⟨_, s'⟩ := y
    obtain ⟨rfl, hs⟩ := hxy
    simp only [Outcome.bind_done, (h.trees t).poisoned]
    split
    · exact .done (h.leave t a _)
    · exact .done ((h.checkIn t a hs).leave t a _)

theorem cancel_akin (hh : handler.Respects (World.Akin F)) (t : TreeId) (a : K) {s s' : AgentState}
    (hs : s.Akin (F.tree t).program s') {w v : World K A} (h : w.Akin F v) :
    Outcome.Alike (World.Akin F) (F.cancel handler t a s w) (F.cancel handler t a s' v) := by
  have hawaited : (F.tree t).awaited s' = (F.tree t).awaited s := by
    rw [Tree.awaited, Tree.awaited, hs.paused, hs.cursor]
  rw [cancel, cancel, hawaited, hs.cursor, hs.board]
  split
  · exact Tick.endVisit_respects _ (World.Akin.congruence F) hh _ _ _ _ w v h
  · exact (hh _ w v h).map _
  · exact .done h

theorem abort_akin (hF : F.Fresh) (hh : handler.Respects (World.Akin F)) (t : TreeId) (a : K) :
    Respects (World.Akin F) (F.abort handler t a) := by
  intro w v h
  have hagent := h.agent? t a
  simp only [abort, (h.trees t).poisoned]
  split
  · exact .done (h.log _)
  generalize w.agent? t a = x at hagent
  generalize v.agent? t a = y at hagent
  cases hagent with
  | none => exact .done h
  | some hs =>
    refine (cancel_akin hh t a hs (h.checkOut t a)).bind fun board w v h => ?_
    simp only [(h.trees t).poisoned]
    split
    · exact .done h
    · exact .done (h.checkIn t a (.rewind (hF t) rfl))

theorem remove_akin (hh : handler.Respects (World.Akin F)) (t : TreeId) (a : K) :
    Respects (World.Akin F) (F.remove handler t a) := by
  intro w v h
  have hagent := h.agent? t a
  simp only [remove, (h.trees t).poisoned]
  split
  · exact .done h
  generalize w.agent? t a = x at hagent
  generalize v.agent? t a = y at hagent
  cases hagent with
  | none => exact .done h
  | @some s s' hs =>
    have hawaited : (F.tree t).awaited s' = (F.tree t).awaited s := by
      rw [Tree.awaited, Tree.awaited, hs.paused, hs.cursor]
    simp only [hawaited]
    split
    · exact (hh _ _ _ (h.checkOut t a)).map _
    · exact .done (h.checkOut t a)

theorem update_akin (t : TreeId) (a : K) (edit : Edit) :
    Respects (World.Akin F) (fun w : World K A =>
      Outcome.done (update t a edit w).1 (update t a edit w).2) := by
  intro w v h
  have hs := h.state t a
  rw [World.state, World.state] at hs
  simp only [update, (h.trees t).poisoned, hs.board]
  split
  · exact .done h
  · cases edit ((w.agent? t a).getD {}).board with
    | none => exact .done ((h.checkIn t a hs).poison t)
    | some board =>
      exact .done (h.checkIn t a ⟨hs.cursor, hs.paused, rfl, hs.agree.of_counters rfl rfl⟩)

/-- Operations on akin worlds are answered alike and leave akin worlds. -/
theorem serve_akin (hF : F.Fresh) (n : Nat) : (F.serve n).Respects (World.Akin F) := by
  induction n with
  | zero => exact fun c w v h => .cutOff h
  | succ n ih =>
    intro c
    cases c with
    | run t a => exact run_akin hF ih n t a
    | abort t a => exact abort_akin hF ih t a
    | remove t a => exact remove_akin ih t a
    | update t a edit => exact update_akin t a edit

end Forest

end

/-! ## From outside -/

section

variable {K A : Type}

/-- A state of an agent without its counters. -/
def AgentState.uncounted (s : AgentState) : AgentState := { s with counters := ∅ }

/-- A call from outside, what is handed over with it, and the reply. -/
structure Exchange (K A : Type) where
  /-- The shared boards at the time of the call. -/
  registries : Table RegistryId Registry
  /-- The value that is handed to the hooks. -/
  ambient : A
  /-- The call. -/
  call : Call K
  /-- Its reply. -/
  reply : call.Reply

variable [DecidableEq K]

/-- Two worlds are the same but for the counters of agents. -/
structure World.SameUncounted (w v : World K A) : Prop where
  journal : v.journal = w.journal
  registries : v.registries = w.registries
  ambient : v.ambient = w.ambient
  running : ∀ t, (v.tree t).running = (w.tree t).running
  poisoned : ∀ t, (v.tree t).poisoned = (w.tree t).poisoned
  drawn : ∀ t, (v.tree t).drawn = (w.tree t).drawn
  agents : ∀ t a, (v.agent? t a).map AgentState.uncounted = (w.agent? t a).map AgentState.uncounted

theorem World.Akin.sameUncounted {F : Forest K A} {w v : World K A} (h : w.Akin F v) :
    w.SameUncounted v := by
  refine ⟨h.journal, h.registries, h.ambient, fun t => (h.trees t).running,
    fun t => (h.trees t).poisoned, fun t => (h.trees t).drawn, fun t a => ?_⟩
  have hagent := h.agent? t a
  generalize w.agent? t a = x at hagent
  generalize v.agent? t a = y at hagent
  cases hagent with
  | none => rfl
  | some hs => simp [AgentState.uncounted, hs.cursor, hs.paused, hs.board]

namespace Forest

variable {F : Forest K A} {w v w' : World K A} {t : TreeId} {a : K} {s s' : AgentState}
  {l : List (Exchange K A)}

/-- Calls from outside, one after the other, and the world they leave. -/
inductive Exchanges (F : Forest K A) : World K A → List (Exchange K A) → World K A → Prop where
  | none {w : World K A} : Exchanges F w [] w
  | cons {w w₁ w₂ : World K A} {x : Exchange K A} {rest : List (Exchange K A)} :
      F.Answers x.call { w with registries := x.registries, ambient := x.ambient } x.reply w₁ →
      Exchanges F w₁ rest w₂ → Exchanges F w (x :: rest) w₂

/-- No calls from outside tell two worlds apart: what is replied to any sequence of them in one
is replied to it in the other, and they leave worlds that are the same but for counters. -/
def Indistinct (F : Forest K A) (w v : World K A) : Prop :=
  ∀ l, (∀ w', F.Exchanges w l w' → ∃ v', F.Exchanges v l v' ∧ w'.SameUncounted v') ∧
    ∀ v', F.Exchanges v l v' → ∃ w', F.Exchanges w l w' ∧ w'.SameUncounted v'

theorem Exchanges.akin (hF : F.Fresh) (h : F.Exchanges w l w') (hwv : w.Akin F v) :
    ∃ v', F.Exchanges v l v' ∧ w'.Akin F v' := by
  induction h generalizing v with
  | none => exact ⟨v, .none, hwv⟩
  | @cons w w₁ w₂ x rest hreply _ ih =>
    obtain ⟨n, hserve⟩ := hreply
    have halike := serve_akin hF n x.call
      { w with registries := x.registries, ambient := x.ambient }
      { v with registries := x.registries, ambient := x.ambient } ⟨hwv.trees, rfl, rfl, hwv.journal⟩
    rw [hserve] at halike
    obtain ⟨v₁, hserve', hwv₁⟩ := halike.done_inv
    obtain ⟨v₂, hrest, hwv₂⟩ := ih hwv₁
    exact ⟨v₂, .cons ⟨n, hserve'⟩ hrest, hwv₂⟩

theorem indistinct_of_akin (hF : F.Fresh) (h : w.Akin F v) : F.Indistinct w v := by
  refine fun l => ⟨fun w' hw => ?_, fun v' hv => ?_⟩
  · obtain ⟨v', hv, hakin⟩ := hw.akin hF h
    exact ⟨v', hv, hakin.sameUncounted⟩
  · obtain ⟨w', hw, hakin⟩ := hv.akin hF h.symm
    exact ⟨w', hw, hakin.symm.sameUncounted⟩

/-- What a tree keeps of an agent that begins anew stands for any state that does so with the
same board. -/
theorem indistinct_checkIn (hF : F.Fresh) (hagent : w.agent? t a = some s)
    (hs : s.standing = (0, false)) (hs' : s'.standing = (0, false)) (hboard : s'.board = s.board) :
    F.Indistinct w (w.checkIn t a s') :=
  indistinct_of_akin hF (.checkIn_of_agent? hagent (.of_fresh (hF t) hs hs' hboard))

/-- After a tick that has not suspended the agent and was not refused, the agent begins anew. -/
theorem standing_of_run {n : Nat} {r : Except RunError Status}
    (h : F.serve n (.run t a) w = .done r w') (hrunning : r ≠ .ok .running)
    (hrefused : r ≠ .error .reentrant) (hpoisoned : (w'.tree t).poisoned = false) :
    ∃ s, w'.agent? t a = some s ∧ s.standing = (0, false) := by
  cases n with
  | zero => cases h
  | succ n =>
    cases run_cases h with
    | refused => exact absurd rfl hrefused
    | poisoned _ hbefore => simp [hbefore] at hpoisoned
    | lost _ _ _ hafter => simp [hafter] at hpoisoned
    | ticked _ _ hperform _ =>
      obtain ⟨hcursor, hpaused⟩ := Tick.perform_rewound (F.tickOf t a) hperform hrunning
      exact ⟨_, World.agent?_ticked _ t a _ _, Prod.ext hcursor hpaused⟩

/-- After an abort, an agent that the tree knew begins anew. -/
theorem standing_of_abort {n : Nat} (h : F.serve n (.abort t a) w = .done () w')
    (hknown : w.agent? t a ≠ none) (hpoisoned : (w'.tree t).poisoned = false) :
    ∃ s, w'.agent? t a = some s ∧ s.standing = (0, false) := by
  cases n with
  | zero => cases h
  | succ n =>
    cases abort_cases h with
    | skipped hbefore => simp [hbefore] at hpoisoned
    | absent _ hnone => exact absurd hnone hknown
    | lost _ _ _ hafter => simp [hafter] at hpoisoned
    | rewound => exact ⟨_, World.agent?_checkIn_self _ t a _, rfl⟩

/-- In a forest of compiled trees, the counters of an agent that is not suspended and stands at
the first instruction never matter. Whatever calls are issued from then on, of any agent in any
tree and with whatever is handed to the hooks, their replies are the same with any other
counters, hooks are called in the same way, and agents come to stand alike with the same boards.

In particular this is so after a tick that has concluded or failed, and after an abort: with the
board it is left with, the agent is like one that was never ticked. -/
theorem leftovers_never_matter
    (hF : ∀ t < F.trees.length, ∃ root, compile root = .ok (F.tree t).program)
    (t : TreeId) (a : K) :
    (∀ w s s', w.agent? t a = some s → s.standing = (0, false) → s'.standing = (0, false) →
      s'.board = s.board → F.Indistinct w (w.checkIn t a s')) ∧
    (∀ n w r w', F.serve n (.run t a) w = .done r w' → r ≠ .ok .running → r ≠ .error .reentrant →
      (w'.tree t).poisoned = false →
      ∃ s, w'.agent? t a = some s ∧ F.Indistinct w' (w'.checkIn t a { board := s.board })) ∧
    ∀ n w w', F.serve n (.abort t a) w = .done () w' → w.agent? t a ≠ none →
      (w'.tree t).poisoned = false →
      ∃ s, w'.agent? t a = some s ∧ F.Indistinct w' (w'.checkIn t a { board := s.board }) := by
  have hfresh := fresh_of_compiled hF
  refine ⟨fun w s s' hagent hs hs' hboard => indistinct_checkIn hfresh hagent hs hs' hboard,
    fun n w r w' hserve hrunning hrefused hpoisoned => ?_,
    fun n w w' hserve hknown hpoisoned => ?_⟩
  · obtain ⟨s, hagent, hs⟩ := standing_of_run hserve hrunning hrefused hpoisoned
    exact ⟨s, hagent, indistinct_checkIn hfresh hagent hs rfl rfl⟩
  · obtain ⟨s, hagent, hs⟩ := standing_of_abort hserve hknown hpoisoned
    exact ⟨s, hagent, indistinct_checkIn hfresh hagent hs rfl rfl⟩

/-- A loop that is counted twice, over a task that waits as long as it is told to. -/
theorem leftovers_never_matter_twice :
    let wait (_ : Unit) : Hook Unit Nat TaskResult :=
      .ask .ambient fun n => .done (.ok (if n = 0 then .success else .running))
    let p : Program Unit Nat :=
      ⟨[⟨.repeatStart 1, 1, 1⟩, ⟨.repeatCounter 2 2, 3, 4⟩,
        ⟨.task ⟨"wait", none, wait, none⟩, 1, 1⟩]⟩
    let F : Forest Unit Nat := ⟨[{ program := p }]⟩
    let kept (s : AgentState) (n : Nat) : World Unit Nat :=
      { trees := .ofList [(0, { agents := .ofList [((), s)] })], ambient := n }
    let counted : AgentState := { counters := .ofList [(1, 7)] }
    let waiting : AgentState := { cursor := 2, paused := true, counters := .ofList [(1, 1)] }
    compile (.times 2 (.action "wait" wait)) = .ok p ∧
    F.Indistinct (kept counted 0) ((kept counted 0).checkIn 0 () {}) ∧
    (∃ w', F.serve 8 (.run 0 ()) (kept counted 0) = .done (.ok .success) w' ∧
      (w'.state 0 ()).rounds 1 = 3 ∧ F.Indistinct w' (w'.checkIn 0 () {})) ∧
    ∃ w', F.serve 1 (.abort 0 ()) (kept waiting 1) = .done () w' ∧
      (w'.state 0 ()).rounds 1 = 1 ∧ F.Indistinct w' (w'.checkIn 0 () {}) := by
  intro wait p F kept counted waiting
  have hp : compile (.times 2 (.action "wait" wait)) = .ok p := rfl
  have hF : ∀ t < F.trees.length, ∃ root, compile root = .ok (F.tree t).program := by
    intro t ht
    obtain rfl : t = 0 := Nat.lt_one_iff.1 ht
    exact ⟨_, hp⟩
  obtain ⟨hany, hrun, habort⟩ := leftovers_never_matter hF 0 ()
  have hran : F.serve 8 (.run 0 ()) (kept counted 0) = .done (.ok .success) _ := rfl
  have haborted : F.serve 1 (.abort 0 ()) (kept waiting 1) = .done () _ := rfl
  obtain ⟨s, hs, hafter⟩ := hrun 8 _ _ _ hran nofun nofun rfl
  obtain ⟨s', hs', hafter'⟩ := habort 1 _ _ haborted nofun rfl
  cases hs
  cases hs'
  exact ⟨hp, hany _ counted {} rfl rfl rfl rfl, ⟨_, hran, rfl, hafter⟩, _, haborted, rfl, hafter'⟩

end Forest

end

end TickTree

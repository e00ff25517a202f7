import TickTree.Proofs.Bounds
import TickTree.Proofs.Congruence
import TickTree.Proofs.Lasting
import Mathlib.Logic.Function.Basic

/-!
# Records of what a registry was asked

A registry has no history of its own. To speak of what hooks have asked of one, and of what they
were answered, they are made to write it down: `Forest.recording` has each hook note every command
for the registry, with the reply, beside the ambient value, where the original hooks do not see
it. Nothing else changes, so a forest comes to the same with and without its hooks writing, and
what they write is a history of one map from names to boards (`Forest.serve_records`).

Such a history (`Registry.Plays`) is that of a map in the plain sense: each command is answered
from what the commands before have left. An update of a name without a board runs no edit. When an
edit dies there is no map any more, and all further commands are denied.
-/

namespace TickTree

/-! ## Histories of one map -/

namespace Registry

/-- A command, and the reply it got. -/
structure Access where
  /-- The command. -/
  command : Command
  /-- The reply. -/
  reply : command.Reply

/-- Boards by name. -/
abbrev BoardMap := String → Option Blackboard

/-- What a map answers a command, and the map after it; none after an edit that dies. -/
def Command.askMap (m : BoardMap) : (c : Command) → c.Reply × Option BoardMap
  | .register name board => (.ok (m name), some (Function.update m name (some board)))
  | .unregister name => (.ok (m name), some (Function.update m name none))
  | .contains name => ((m name).isSome, some m)
  | .read name => (.ok (m name), some m)
  | .update name edit =>
      match m name with
      | none => (.ok none, some m)
      | some board =>
          match edit board with
          | none => (.ok (some .died), none)
          | some board' =>
              (.ok (some (.edited board)), some (Function.update m name (some board')))

/-- What a command is answered where there is no map any more. -/
def Command.denial : (c : Command) → c.Reply
  | .register .. | .unregister .. | .read .. | .update .. => .error .poisoned
  | .contains .. => false

/-- Accesses lead from one map to another, if each is answered by the map that those before have
left. -/
inductive Plays : Option BoardMap → List Access → Option BoardMap → Prop where
  | nil {m : Option BoardMap} : Plays m [] m
  | answered {m : BoardMap} {c : Command} {es : List Access} {m' : Option BoardMap} :
      Plays (c.askMap m).2 es m' → Plays (some m) (⟨c, (c.askMap m).1⟩ :: es) m'
  | denied {c : Command} {es : List Access} {m' : Option BoardMap} :
      Plays none es m' → Plays none (⟨c, c.denial⟩ :: es) m'

/-- The map that a registry is, unless it is poisoned. -/
def map? (r : Registry) : Option BoardMap := if r.poisoned then none else some r.boards.get?

theorem map?_eq_none_iff {r : Registry} : r.map? = none ↔ r.poisoned = true := by
  cases hpoisoned : r.poisoned <;> simp [map?, hpoisoned]

theorem Plays.append {m m' m'' : Option BoardMap} {es ds : List Access} (h : Plays m es m')
    (h' : Plays m' ds m'') : Plays m (es ++ ds) m'' := by
  induction h with
  | nil => exact h'
  | answered _ ih => exact .answered (ih h')
  | denied _ ih => exact .denied (ih h')

/-- What follows is the history of the map that is left. -/
theorem Plays.split {m m' : Option BoardMap} {es ds : List Access} (h : Plays m (es ++ ds) m') :
    ∃ m₁, Plays m es m₁ ∧ Plays m₁ ds m' := by
  induction es generalizing m with
  | nil => exact ⟨m, .nil, h⟩
  | cons e es ih =>
    cases h with
    | answered h =>
      obtain ⟨m₁, hes, hds⟩ := ih h
      exact ⟨m₁, .answered hes, hds⟩
    | denied h =>
      obtain ⟨m₁, hes, hds⟩ := ih h
      exact ⟨m₁, .denied hes, hds⟩

/-- Where there is no map everything is denied, and there is none afterwards. -/
theorem Plays.of_none {es : List Access} {m' : Option BoardMap} (h : Plays none es m') :
    m' = none ∧ ∀ e ∈ es, e.reply = e.command.denial := by
  obtain ⟨m, hm⟩ : ∃ m : Option BoardMap, m = none := ⟨none, rfl⟩
  rw [← hm] at h
  induction h with
  | nil => exact ⟨hm, nofun⟩
  | answered => cases hm
  | denied _ ih =>
    obtain ⟨hnone, hall⟩ := ih rfl
    exact ⟨hnone, List.forall_mem_cons.2 ⟨rfl, hall⟩⟩

/-- After an edit that died everything is denied. -/
theorem Plays.after_death {m m' : Option BoardMap} {earlier later : List Access} {name : String}
    {edit : Edit} (h : Plays m (earlier ++ ⟨.update name edit, .ok (some .died)⟩ :: later) m') :
    m' = none ∧ ∀ e ∈ later, e.reply = e.command.denial := by
  obtain ⟨m₁, -, h⟩ := h.split
  generalize hreply : (Except.ok (some EditResult.died) :
    (Command.update name edit).Reply) = reply at h
  cases h with
  | @answered m =>
    rename_i h
    rw [Command.askMap] at hreply h
    cases hname : m name with
    | none =>
      rw [hname] at hreply
      cases hreply
    | some board =>
      simp only [hname] at hreply h
      cases hedit : edit board with
      | none =>
        rw [hedit] at h
        exact h.of_none
      | some board' =>
        rw [hedit] at hreply
        cases hreply
  | denied => cases hreply

theorem get?_set_eq_update (boards : Table String Blackboard) (name : String)
    (board : Blackboard) :
    (boards.set name board).get? = Function.update boards.get? name (some board) := by
  funext x
  simp only [Table.get?_set, Function.update_apply, eq_comm]

theorem get?_erase_eq_update (boards : Table String Blackboard) (name : String) :
    (boards.erase name).get? = Function.update boards.get? name none := by
  funext x
  simp only [Table.get?_erase, Function.update_apply, eq_comm]

theorem answer_of_sound {r : Registry} (h : r.poisoned = false) (c : Command) :
    (r.answer c).1 = (c.askMap r.boards.get?).1 ∧
      (r.answer c).2.map? = (c.askMap r.boards.get?).2 := by
  obtain ⟨boards, poisoned⟩ := r
  obtain rfl : poisoned = false := h
  cases c with
  | register name board => exact ⟨rfl, congrArg some (get?_set_eq_update boards name board)⟩
  | unregister name => exact ⟨rfl, congrArg some (get?_erase_eq_update boards name)⟩
  | contains name => exact ⟨rfl, rfl⟩
  | read name => exact ⟨rfl, rfl⟩
  | update name edit =>
    simp only [answer, update, Command.askMap, Bool.false_eq_true, if_false]
    cases boards.get? name with
    | none => exact ⟨rfl, rfl⟩
    | some board =>
      simp only
      cases edit board with
      | none => exact ⟨rfl, rfl⟩
      | some board' => exact ⟨rfl, congrArg some (get?_set_eq_update boards name board')⟩

theorem answer_denied {r : Registry} (h : r.poisoned = true) (c : Command) :
    (r.answer c).1 = c.denial := by
  cases c <;> simp [answer, register, unregister, contains, read, update, Command.denial, h]

/-- A registry answers as the map that it is. -/
theorem plays_answer (r : Registry) (c : Command) :
    Plays r.map? [⟨c, (r.answer c).1⟩] (r.answer c).2.map? := by
  cases hpoisoned : r.poisoned with
  | true =>
    rw [answer_denied hpoisoned, answer_poisoned hpoisoned, map?_eq_none_iff.2 hpoisoned]
    exact .denied .nil
  | false =>
    obtain ⟨hreply, hafter⟩ := answer_of_sound hpoisoned c
    rw [hreply, hafter, map?, hpoisoned]
    exact .answered .nil

end Registry

/-! ## Hooks that write down -/

section

variable {K A B α : Type}

/-- The hook, writing down every command for a registry and its reply. -/
def Hook.recording (r : RegistryId) : Hook K A α → Hook K (A × List Registry.Access) α
  | .done answer => .done answer
  | .ask .board next => .ask .board fun board => (next board).recording r
  | .ask (.setBoard board) next => .ask (.setBoard board) fun reply => (next reply).recording r
  | .ask .ambient next => .ask .ambient fun value => (next value.1).recording r
  | .ask (.setAmbient value) next =>
      .ask .ambient fun old => .ask (.setAmbient (value, old.2)) fun reply =>
        (next reply).recording r
  | .ask (.registry id command) next =>
      .ask (.registry id command) fun reply =>
        if id = r then
          .ask .ambient fun old => .ask (.setAmbient (old.1, old.2 ++ [⟨command, reply⟩])) fun _ =>
            (next reply).recording r
        else (next reply).recording r
  | .ask (.call c) next => .ask (.call c) fun reply => (next reply).recording r
  | .ask (.inspect t a) next => .ask (.inspect t a) fun reply => (next reply).recording r
  | .ask (.note n) next => .ask (.note n) fun reply => (next reply).recording r

/-- The task with its hooks writing down. -/
def RunnableTask.recording (r : RegistryId) (task : RunnableTask K A) :
    RunnableTask K (A × List Registry.Access) where
  name := task.name
  start := task.start.map fun hook a => (hook a).recording r
  run a := (task.run a).recording r
  finish := task.finish.map fun hook a status => (hook a status).recording r

/-- The instruction with its task changed. -/
def Op.mapTask (f : RunnableTask K A → RunnableTask K B) : Op K A → Op K B
  | .task t => .task (f t)
  | .query q => .query q
  | .subTree link => .subTree link
  | .randomBranch table => .randomBranch table
  | .repeatStart counter => .repeatStart counter
  | .repeatCounter goal body => .repeatCounter goal body
  | .hangingSucceed => .hangingSucceed
  | .hangingFail => .hangingFail

/-- The tree with its hooks writing down. -/
def Tree.recording (r : RegistryId) (T : Tree K A) : Tree K (A × List Registry.Access) where
  program := ⟨T.program.instructions.map fun i =>
    ⟨i.op.mapTask (·.recording r), i.onSuccess, i.onFail⟩⟩
  config := T.config
  registry := T.registry
  words := T.words

/-- The forest with its hooks writing down. -/
def Forest.recording (r : RegistryId) (F : Forest K A) : Forest K (A × List Registry.Access) :=
  ⟨F.trees.map (·.recording r)⟩

/-- The world with this written down so far. -/
def World.recorded (w : World K A) (es : List Registry.Access) :
    World K (A × List Registry.Access) where
  trees := w.trees
  registries := w.registries
  ambient := (w.ambient, es)
  journal := w.journal

theorem World.recorded_inj {w v : World K A} {es ds : List Registry.Access}
    (h : w.recorded es = v.recorded ds) : w = v ∧ es = ds := by
  obtain ⟨trees, registries, ambient, journal⟩ := w
  obtain ⟨trees', registries', ambient', journal'⟩ := v
  cases h
  exact ⟨rfl, rfl⟩

theorem Forest.tree_recording (r : RegistryId) (F : Forest K A) (t : TreeId) :
    (F.recording r).tree t = (F.tree t).recording r := by
  simp only [Forest.tree, Forest.recording, List.getElem?_map]
  cases F.trees[t]? <;> rfl

theorem Tree.get?_recording (r : RegistryId) (T : Tree K A) (index : Nat) :
    (T.recording r).program.get? index =
      (T.program.get? index).map fun i =>
        ⟨i.op.mapTask (·.recording r), i.onSuccess, i.onFail⟩ := by
  simp [Tree.recording, Program.get?]

@[simp]
theorem Tree.length_recording (r : RegistryId) (T : Tree K A) :
    (T.recording r).program.length = T.program.length := by
  simp [Tree.recording, Program.length]

/-! ## Worlds and what is written down in them -/

/-- The second world is the first one with a history written down, of the map that the registry
was at the beginning. -/
inductive World.Records (r : RegistryId) (m : Option Registry.BoardMap) :
    World K A → World K (A × List Registry.Access) → Prop where
  | of {w : World K A} {es : List Registry.Access} :
      Registry.Plays m es (w.registry r).map? → Records r m w (w.recorded es)

namespace World.Records

variable {r : RegistryId} {m : Option Registry.BoardMap} {w : World K A}
  {v : World K (A × List Registry.Access)}

theorem tree (h : Records r m w v) (t : TreeId) : v.tree t = w.tree t := by
  cases h
  rfl

theorem registry (h : Records r m w v) (x : RegistryId) : v.registry x = w.registry x := by
  cases h
  rfl

theorem log (h : Records r m w v) (e : Event K) : Records r m (w.log e) (v.log e) := by
  cases h with
  | of hplays => exact .of (w := w.log e) hplays

theorem modifyTree (h : Records r m w v) (t : TreeId) (f : TreeState K → TreeState K) :
    Records r m (w.modifyTree t f) (v.modifyTree t f) := by
  cases h with
  | of hplays => exact .of (w := w.modifyTree t f) hplays

theorem leave (h : Records r m w v) (t : TreeId) (a : K) (result : Except RunError Status) :
    Records r m (w.leave t a result) (v.leave t a result) := (h.modifyTree t _).log _

theorem enter (h : Records r m w v) (t : TreeId) (a : K) :
    Records r m (w.enter t a) (v.enter t a) := (h.modifyTree t _).log _

variable [DecidableEq K]

theorem agent? (h : Records r m w v) (t : TreeId) (a : K) : v.agent? t a = w.agent? t a := by
  cases h
  rfl

theorem checkOut (h : Records r m w v) (t : TreeId) (a : K) :
    Records r m (w.checkOut t a) (v.checkOut t a) := h.modifyTree t _

theorem checkIn (h : Records r m w v) (t : TreeId) (a : K) (s : AgentState) :
    Records r m (w.checkIn t a s) (v.checkIn t a s) := h.modifyTree t _

end World.Records

/-! ## Operations and what is written down -/

variable [DecidableEq K] {r : RegistryId} {m : Option Registry.BoardMap} {w : World K A}
  {v : World K (A × List Registry.Access)} {handler : Handler K A}
  {handler' : Handler K (A × List Registry.Access)}

/-- A handler does what another one does, and writes down. -/
def Handler.Records (r : RegistryId) (m : Option Registry.BoardMap) (handler : Handler K A)
    (handler' : Handler K (A × List Registry.Access)) : Prop :=
  ∀ c w v, World.Records r m w v → Outcome.Alike (World.Records r m) (handler c w) (handler' c v)

theorem Hook.perform_records (hh : handler.Records r m handler') (hook : Hook K A α)
    (board : Blackboard) (h : World.Records r m w v) :
    Outcome.Alike (World.Records r m) (hook.perform handler board w)
      ((hook.recording r).perform handler' board v) := by
  induction hook generalizing board w v with
  | done a => exact .done h
  | ask request next ih =>
    cases h with
    | @of es hplays =>
      cases request with
      | board => exact ih board board (.of hplays)
      | setBoard board' => exact ih () board' (.of hplays)
      | ambient => exact ih w.ambient board (.of hplays)
      | setAmbient value => exact ih () board (.of (w := { w with ambient := value }) hplays)
      | registry id command =>
        have hcommand := Registry.plays_answer (w.registry r) command
        by_cases hid : id = r
        · subst hid
          simp only [recording, perform, Request.answer, if_true]
          refine ih _ board (.of (w := w.setRegistry id ((w.registry id).answer command).2) ?_)
          rw [World.registry_setRegistry, if_pos rfl]
          exact hplays.append hcommand
        · simp only [recording, perform, Request.answer, if_neg hid]
          refine ih _ board (.of (w := w.setRegistry id ((w.registry id).answer command).2) ?_)
          rwa [World.registry_setRegistry, if_neg hid]
      | call c =>
        rw [recording, Hook.perform_ask, Hook.perform_ask]
        exact ((hh c w _ (.of hplays)).map _).bind fun reply w v h => ih reply.1 reply.2 h
      | inspect t a =>
        exact ih (w.view t a) board (.of (w := w.log (.looked t a (w.tree t).running)) hplays)
      | note n => exact ih () board (.of (w := w.log (.noted n)) hplays)

namespace Tick

/-- The tick in the tree whose hooks write down. -/
def recording (r : RegistryId) (tick : Tick K A) : Tick K (A × List Registry.Access) :=
  ⟨tick.tree.recording r, tick.id, tick.agent⟩

variable (tick : Tick K A) (index : Nat) (task : RunnableTask K A)

theorem beginVisit_records (hh : handler.Records r m handler') (board : Blackboard)
    (h : World.Records r m w v) :
    Outcome.Alike (World.Records r m) (tick.beginVisit handler index task board w)
      ((tick.recording r).beginVisit handler' index (task.recording r) board v) := by
  rw [beginVisit, beginVisit]
  cases hstart : task.start with
  | none =>
    simp only [RunnableTask.recording, hstart, Option.map_none]
    exact .done h
  | some hook =>
    simp only [RunnableTask.recording, hstart, Option.map_some]
    exact (Hook.perform_records hh _ board (h.log _)).map _

theorem endVisit_records (hh : handler.Records r m handler') (status : Status) (board : Blackboard)
    (h : World.Records r m w v) :
    Outcome.Alike (World.Records r m) (tick.endVisit handler index task status board w)
      ((tick.recording r).endVisit handler' index (task.recording r) status board v) := by
  rw [endVisit, endVisit]
  cases hfinish : task.finish with
  | none =>
    simp only [RunnableTask.recording, hfinish, Option.map_none]
    exact .done h
  | some hook =>
    simp only [RunnableTask.recording, hfinish, Option.map_some]
    exact (Hook.perform_records hh _ board (h.log _)).map _

theorem visit_records (hh : handler.Records r m handler') (resumed : Bool) (board : Blackboard)
    (h : World.Records r m w v) :
    Outcome.Alike (World.Records r m) (tick.visit handler index task resumed board w)
      ((tick.recording r).visit handler' index (task.recording r) resumed board v) := by
  rw [visit, visit]
  have hbegin : Outcome.Alike (World.Records r m)
      (if resumed then .done board w else tick.beginVisit handler index task board w)
      (if resumed then .done board v else
        (tick.recording r).beginVisit handler' index (task.recording r) board v) := by
    cases resumed with
    | true => exact .done h
    | false => exact tick.beginVisit_records index task hh board h
  refine hbegin.bind fun board w v h => ?_
  refine (Hook.perform_records hh (task.run tick.agent) board h).bind fun answer w v h => ?_
  have hran := h.log (.ran tick.id tick.agent index task.name answer.1)
  simp only
  split
  · exact (tick.endVisit_records index task hh _ _ hran).map _
  · exact .done hran

omit task in
theorem dispatch_records (hh : handler.Records r m handler') (resumed : Bool)
    (i : Instruction Nat K A) (s : AgentState) (h : World.Records r m w v) :
    Outcome.Alike (World.Records r m) (tick.dispatch handler index resumed i s w)
      ((tick.recording r).dispatch handler' index resumed
        ⟨i.op.mapTask (·.recording r), i.onSuccess, i.onFail⟩ s v) := by
  obtain ⟨op, yes, no⟩ := i
  cases op with
  | task task => exact (tick.visit_records index task hh resumed s.board h).map _
  | query q =>
    have hregistry : (tick.recording r).tree.registry.map v.registry =
        tick.tree.registry.map w.registry :=
      Option.map_congr fun x _ => h.registry x
    simp only [dispatch, Op.mapTask, hregistry]
    cases q.find s.board (tick.tree.registry.map w.registry) with
    | error e => exact .done (h.log _)
    | ok found =>
      cases found with
      | none => exact .done (h.log _)
      | some b => cases b <;> exact .done h
  | subTree link =>
    refine (hh (.run link.tree tick.agent) w v h).bind fun result w v h => ?_
    cases result with
    | ok status => exact .done h
    | error e => exact .done (h.log _)
  | randomBranch table =>
    cases table with
    | nil => exact .done h
    | cons first rest =>
      have hdrawn : (v.tree (tick.recording r).id).drawn = (w.tree tick.id).drawn := by
        rw [h.tree]
        rfl
      simp only [dispatch, Op.mapTask, hdrawn]
      exact .done ((h.modifyTree _ _).log _)
  | repeatStart | repeatCounter | hangingSucceed | hangingFail => exact .done h

theorem advance_records (hh : handler.Records r m handler') (f : Frame)
    (h : World.Records r m w v) :
    Outcome.Alike (World.Records r m) (tick.advance handler f w)
      ((tick.recording r).advance handler' f v) := by
  have hget : (tick.recording r).tree.program.get? f.cursor = _ :=
    Tree.get?_recording r tick.tree f.cursor
  have hresult : (tick.recording r).resultAt f.cursor = tick.resultAt f.cursor := by
    simp only [resultAt, recording, Program.terminalStatus, Program.successIndex,
      Program.failIndex, Tree.length_recording]
    rfl
  have hexhausted : (tick.recording r).exhausted f = tick.exhausted f := rfl
  rw [advance, advance, hget, hresult, hexhausted]
  cases tick.tree.program.get? f.cursor with
  | none => exact .done h
  | some i =>
    cases tick.exhausted f with
    | none => exact (tick.dispatch_records _ hh _ i _ (h.log _)).map _
    | some limit => exact .done (h.log _)

theorem walk_records (hh : handler.Records r m handler') (n : Nat) (f : Frame)
    (h : World.Records r m w v) :
    Outcome.Alike (World.Records r m) (tick.walk handler n f w)
      ((tick.recording r).walk handler' n f v) := by
  induction n generalizing f w v with
  | zero => exact .done h
  | succ n ih =>
    rw [walk_succ, walk_succ]
    refine (tick.advance_records hh f h).bind fun p w v h => ?_
    cases p with
    | underway f' => exact ih f' h
    | ended result s => exact .done h

theorem perform_records (hh : handler.Records r m handler') (bound : Nat) (s : AgentState)
    (h : World.Records r m w v) :
    Outcome.Alike (World.Records r m) (tick.perform handler bound s w)
      ((tick.recording r).perform handler' bound s v) := by
  rw [perform, perform]
  simp only [recording, Tree.length_recording]
  split
  · exact .done h
  · have hwalk := tick.walk_records hh bound (.begin s) h
    simp only [recording] at hwalk
    generalize tick.walk handler bound (.begin s) w = o at hwalk
    generalize Tick.walk _ handler' bound (.begin s) v = p at hwalk
    cases hwalk with
    | cutOff h' => exact .cutOff h'
    | @done progress _ _ h' =>
      cases progress with
      | underway f => exact .cutOff h'
      | ended result s' => exact .done h'

end Tick

namespace Forest

variable (F : Forest K A) (t : TreeId) (a : K)

omit [DecidableEq K] in
theorem tickOf_recording (r : RegistryId) :
    (F.recording r).tickOf t a = (F.tickOf t a).recording r := by
  rw [tickOf, tree_recording]
  rfl

omit [DecidableEq K] in
theorem awaited_recording (r : RegistryId) (s : AgentState) :
    ((F.recording r).tree t).awaited s =
      ((F.tree t).awaited s).map (Op.mapTask (·.recording r)) := by
  rw [tree_recording, Tree.awaited, Tree.awaited, Tree.get?_recording]
  split
  · rw [Option.map_map, Option.map_map]
    rfl
  · rfl

theorem run_records (hh : handler.Records r m handler') (bound : Nat)
    (h : World.Records r m w v) :
    Outcome.Alike (World.Records r m) (F.run handler bound t a w)
      ((F.recording r).run handler' bound t a v) := by
  have hstate : v.state t a = w.state t a := by rw [World.state, World.state, h.agent?]
  rw [run_eq, run_eq, h.tree, hstate, tickOf_recording]
  split
  · exact .done (h.log _)
  split
  · exact .done ((h.enter t a).leave t a _)
  refine ((F.tickOf t a).perform_records hh bound _ ((h.enter t a).checkOut t a)).bind
    fun answer w v h => ?_
  rw [h.tree]
  split
  · exact .done (h.leave t a _)
  · exact .done ((h.checkIn t a _).leave t a _)

theorem cancel_records (hh : handler.Records r m handler') (s : AgentState)
    (h : World.Records r m w v) :
    Outcome.Alike (World.Records r m) (F.cancel handler t a s w)
      ((F.recording r).cancel handler' t a s v) := by
  rw [cancel, cancel, awaited_recording]
  cases (F.tree t).awaited s with
  | none => exact .done h
  | some op =>
    cases op with
    | task task =>
      have hend := (F.tickOf t a).endVisit_records s.cursor task hh .failure s.board h
      rw [← tickOf_recording] at hend
      exact hend
    | subTree link => exact (hh _ w v h).map _
    | query | randomBranch | repeatStart | repeatCounter | hangingSucceed | hangingFail =>
      exact .done h

theorem abort_records (hh : handler.Records r m handler') (h : World.Records r m w v) :
    Outcome.Alike (World.Records r m) (F.abort handler t a w)
      ((F.recording r).abort handler' t a v) := by
  rw [abort, abort, h.tree, h.agent?]
  split
  · exact .done (h.log _)
  cases w.agent? t a with
  | none => exact .done h
  | some s =>
    refine (F.cancel_records t a hh s (h.checkOut t a)).bind fun board w v h => ?_
    rw [h.tree]
    split
    · exact .done h
    · exact .done (h.checkIn t a _)

theorem remove_records (hh : handler.Records r m handler') (h : World.Records r m w v) :
    Outcome.Alike (World.Records r m) (F.remove handler t a w)
      ((F.recording r).remove handler' t a v) := by
  rw [remove, remove, h.tree, h.agent?]
  split
  · exact .done h
  cases w.agent? t a with
  | none => exact .done h
  | some s =>
    simp only [awaited_recording]
    cases (F.tree t).awaited s with
    | none => exact .done (h.checkOut t a)
    | some op =>
      cases op with
      | subTree link => exact (hh _ _ _ (h.checkOut t a)).map _
      | task | query | randomBranch | repeatStart | repeatCounter | hangingSucceed | hangingFail =>
        exact .done (h.checkOut t a)

theorem update_records (edit : Edit) (h : World.Records r m w v) :
    (update t a edit v).1 = (update t a edit w).1 ∧
      World.Records r m (update t a edit w).2 (update t a edit v).2 := by
  rw [update, update, h.tree, h.agent?]
  split
  · exact ⟨rfl, h⟩
  simp only
  cases edit ((w.agent? t a).getD {}).board with
  | none => exact ⟨rfl, (h.checkIn t a _).modifyTree t fun s => { s with poisoned := true }⟩
  | some board => exact ⟨rfl, h.checkIn t a _⟩

/-- A forest comes to the same when its hooks write down what they ask of a registry, and what
they write is a history of one map. -/
theorem serve_records (n : Nat) : (F.serve n).Records r m ((F.recording r).serve n) := by
  induction n with
  | zero => exact fun c w v h => .cutOff h
  | succ n ih =>
    intro c w v h
    cases c with
    | run t a => exact F.run_records t a ih n h
    | abort t a => exact F.abort_records t a ih h
    | remove t a => exact F.remove_records t a ih h
    | update t a edit =>
      obtain ⟨hreply, hafter⟩ := update_records t a edit h
      simp only [serve, answer, hreply]
      exact .done hafter

end Forest

end

end TickTree

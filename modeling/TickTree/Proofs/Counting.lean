import TickTree.Proofs.Laps
import TickTree.Proofs.Soundness
import TickTree.Proofs.Termination

/-!
# Counting for agents

The journal tells which instructions of a tree were dispatched for an agent (`World.itinerary`), and
also where one of its ticks was over for good, so that the next begins at the first instruction
(`World.track`). The agent has come to its cursor and its counters by that track, in the tree
between ticks and in the hands of a tick (`Forest.Accounted`, `Forest.Walking`). This is a contract
of all operations (`Forest.fulfils_accounting`): while a tree ticks, no hook gets another
instruction of it dispatched, and what is put in place of the agent's state begins at the first
instruction (`World.Awaits`). So it holds at every moment at which an operation can be asked for
(`Forest.Occurs.accounted`), and wherever a tick that begins there comes to
(`Forest.walk_walking`).
-/

namespace TickTree

variable {K A α : Type}

section

variable [DecidableEq K]

/-! ## Itineraries -/

/-- The instruction that was dispatched for an agent of a tree, if the event says so. -/
def Event.dispatch? (t : TreeId) (a : K) : Event K → Option Nat
  | .dispatched u b index => if u = t ∧ b = a then some index else none
  | _ => none

/-- The instructions of a tree that were dispatched for an agent, newest first. -/
def World.itinerary (t : TreeId) (a : K) (w : World K A) : List Nat :=
  w.journal.filterMap (Event.dispatch? t a)

/-- The answers of a tick after which the next one of the agent begins at the first instruction. In
a tree that is poisoned none begins. -/
def rewinds : Except RunError Status → Bool
  | .ok status => status.isDone
  | .error e => e ≠ .poisoned

/-- What an event adds to the track of an agent in a tree: an instruction that was dispatched, or
that a tick was over for good. -/
def Event.mark? (t : TreeId) (a : K) : Event K → Option (Option Nat)
  | .dispatched u b index => if u = t ∧ b = a then some (some index) else none
  | .left u b r => if (u = t ∧ b = a) ∧ rewinds r = true then some none else none
  | _ => none

/-- The way of an agent through the program of a tree, newest first. -/
def World.track (t : TreeId) (a : K) (w : World K A) : List (Option Nat) :=
  w.journal.filterMap (Event.mark? t a)

namespace World

variable {t u : TreeId} {a b : K} {w v x : World K A}

theorem itinerary_dispatched (j : Nat) (w : World K A) :
    (w.log (.dispatched t a j)).itinerary t a = j :: w.itinerary t a := by
  simp [itinerary, log, Event.dispatch?]

/-- On its way an agent was at the instructions that were dispatched for it. -/
theorem reduceOption_track (t : TreeId) (a : K) (w : World K A) :
    (w.track t a).reduceOption = w.itinerary t a := by
  have hmark : ∀ e : Event K, (e.mark? t a).bind id = e.dispatch? t a := by
    intro e
    cases e with
    | dispatched u b j => by_cases h : u = t ∧ b = a <;> simp [Event.mark?, Event.dispatch?, h]
    | left u b r =>
      by_cases h : (u = t ∧ b = a) ∧ rewinds r = true <;> simp [Event.mark?, Event.dispatch?, h]
    | _ => rfl
  simp only [List.reduceOption, track, itinerary, List.filterMap_filterMap, hmark]

theorem track_log {e : Event K} (he : ∀ t a, e.mark? t a = none) (w : World K A) :
    (w.log e).track t a = w.track t a := by
  simp [track, log, he]

theorem track_dispatched (j : Nat) (w : World K A) :
    (w.log (.dispatched t a j)).track t a = some j :: w.track t a := by
  simp [track, log, Event.mark?]

theorem track_dispatched_of_ne (h : ¬ (u = t ∧ b = a)) (j : Nat) (w : World K A) :
    (w.log (.dispatched u b j)).track t a = w.track t a := by
  simp [track, log, Event.mark?, h]

theorem track_leave_of_ne (h : ¬ (u = t ∧ b = a)) (r : Except RunError Status) (w : World K A) :
    (w.leave u b r).track t a = w.track t a := by
  simp [track, leave, log, modifyTree, Event.mark?, h]

theorem track_leave_of_not_rewinds {r : Except RunError Status} (h : rewinds r = false)
    (w : World K A) : (w.leave u b r).track t a = w.track t a := by
  simp [track, leave, log, modifyTree, Event.mark?, h]

/-- Nothing has changed about the agents in the trees, and none of them got any further. -/
structure Still (w v : World K A) : Prop where
  agents : ∀ t a, v.agent? t a = w.agent? t a
  running : ∀ t, (v.tree t).running = (w.tree t).running
  track : ∀ t a, v.track t a = w.track t a

namespace Still

theorem refl (w : World K A) : w.Still w := ⟨fun _ _ => rfl, fun _ => rfl, fun _ _ => rfl⟩

theorem trans (h : w.Still v) (h' : v.Still x) : w.Still x :=
  ⟨fun t a => (h'.agents t a).trans (h.agents t a),
    fun t => (h'.running t).trans (h.running t),
    fun t a => (h'.track t a).trans (h.track t a)⟩

theorem of_trees (htrees : v.trees = w.trees) (hjournal : v.journal = w.journal) : w.Still v where
  agents t a := by rw [agent?, agent?, tree, tree, htrees]
  running t := by rw [tree, tree, htrees]
  track t a := by rw [World.track, World.track, hjournal]

theorem log {e : Event K} (he : ∀ t a, e.mark? t a = none) (w : World K A) :
    w.Still (w.log e) :=
  ⟨fun _ _ => rfl, fun _ => rfl, fun _ _ => track_log he w⟩

theorem modifyTree {f : TreeState K → TreeState K} (hagents : ∀ s, (f s).agents = s.agents)
    (hrunning : ∀ s, (f s).running = s.running) (w : World K A) (t : TreeId) :
    w.Still (w.modifyTree t f) :=
  ⟨fun u a => agent?_modifyTree w t hagents u a,
    fun u => project_modifyTree w t (p := fun s => s.running) hrunning u, fun _ _ => rfl⟩

end Still

/-- Whatever state a tree holds of an agent, the agent's next tick begins at the first
instruction. -/
def Rewound (t : TreeId) (a : K) (w : World K A) : Prop := ∀ s, w.agent? t a = some s → s.cursor = 0

/-- Nothing has happened that would matter to a tick of the tree that is under way. -/
structure Awaits (u : TreeId) (w v : World K A) : Prop where
  running : (w.tree u).running = true → (v.tree u).running = true
  track : ∀ a, v.track u a = w.track u a
  rewound : ∀ a, w.Rewound u a → v.Rewound u a

namespace Awaits

theorem refl (u : TreeId) (w : World K A) : w.Awaits u w := ⟨id, fun _ => rfl, fun _ => id⟩

theorem trans (h : w.Awaits u v) (h' : v.Awaits u x) : w.Awaits u x :=
  ⟨fun hrunning => h'.running (h.running hrunning),
    fun a => (h'.track a).trans (h.track a), fun a ha => h'.rewound a (h.rewound a ha)⟩

theorem still (h : w.Still v) (u : TreeId) : w.Awaits u v where
  running hrunning := by rw [h.running, hrunning]
  track := h.track u
  rewound a hw s hs := hw s (by rwa [h.agents] at hs)

/-- What happens in another tree. -/
theorem of_tree (htree : v.tree u = w.tree u) (htrack : ∀ a, v.track u a = w.track u a) :
    w.Awaits u v where
  running hrunning := by rw [htree, hrunning]
  track := htrack
  rewound a hw s hs := hw s (by rwa [agent?, htree] at hs)

theorem checkOut (w : World K A) (u t : TreeId) (a : K) : w.Awaits u (w.checkOut t a) where
  running hrunning := by
    rw [← hrunning]
    exact project_modifyTree w t (f := fun s => { s with agents := s.agents.erase a })
      (p := fun s => s.running) (fun _ => rfl) u
  track _ := rfl
  rewound b hw s hs := by
    rw [agent?_checkOut] at hs
    split at hs
    · cases hs
    · exact hw s hs

theorem checkIn {s : AgentState} (hs : t = u → w.Rewound u a → s.cursor = 0) :
    w.Awaits u (w.checkIn t a s) where
  running hrunning := by
    rw [← hrunning]
    exact project_modifyTree w t (f := fun x => { x with agents := x.agents.set a s })
      (p := fun x => x.running) (fun _ => rfl) u
  track _ := rfl
  rewound b hw s' hs' := by
    rw [agent?_checkIn] at hs'
    split at hs'
    · rename_i hsame
      obtain ⟨rfl, rfl⟩ := hsame
      cases hs'
      exact hs rfl hw
    · exact hw s' hs'

end Awaits

end World

/-! ## Courses between dispatches -/

theorem Course.Keeps.mapped {β : Type} {course : Course K A α} {w : World K A}
    (h : course.Keeps World.Still w) (f : α → β) : (course.map f).Keeps World.Still w :=
  h.bind (fun _ _ _ => .trans) fun _ v => World.Still.refl v

theorem Hook.course_still (hook : Hook K A α) (board : Blackboard) (w : World K A) :
    (hook.course board w).Keeps World.Still w := by
  induction hook generalizing board w with
  | done a => exact .refl w
  | ask r next ih =>
    have hr : (r.course board w).Keeps World.Still w := by
      cases r with
      | call c => exact ⟨.refl w, fun _ w' => .refl w'⟩
      | board | setBoard => exact .refl w
      | ambient | setAmbient | registry => exact .of_trees rfl rfl
      | inspect t a => exact .log (fun _ _ => rfl) w
      | note n => exact .log (fun _ _ => rfl) w
    exact hr.bind (fun _ _ _ => .trans) fun (reply : r.Reply × Blackboard) v => ih reply.1 reply.2 v

namespace Tick

variable (tick : Tick K A) {w : World K A}

theorem endCourse_still (index : Nat) (task : RunnableTask K A) (status : Status)
    (board : Blackboard) (w : World K A) :
    (tick.endCourse index task status board w).Keeps World.Still w := by
  rw [endCourse]
  cases task.finish with
  | none => exact .refl w
  | some hook =>
    have hcourse := (hook tick.agent status).course_still board
      (w.log (.finished tick.id tick.agent index task.name status))
    exact (hcourse.mapped _).from_earlier
      (fun _ _ _ => .trans) (.log (fun _ _ => rfl) w)

theorem visitCourse_still (index : Nat) (task : RunnableTask K A) (resumed : Bool)
    (board : Blackboard) (w : World K A) :
    (tick.visitCourse index task resumed board w).Keeps World.Still w := by
  have hbegin : (if resumed then .done board w
      else tick.beginCourse index task board w).Keeps World.Still w := by
    cases resumed with
    | true => exact .refl w
    | false =>
      rw [beginCourse]
      cases task.start with
      | none => exact .refl w
      | some hook =>
        have hcourse := (hook tick.agent).course_still board
          (w.log (.started tick.id tick.agent index task.name))
        exact (hcourse.mapped _).from_earlier
          (fun _ _ _ => .trans) (.log (fun _ _ => rfl) w)
  refine hbegin.bind (fun _ _ _ => .trans) fun board v => ?_
  refine (Hook.course_still _ board v).bind (fun _ _ _ => .trans)
    fun (answer : TaskResult × Blackboard) v => ?_
  refine Course.Keeps.from_earlier (fun _ _ _ => .trans)
    (.log (e := .ran tick.id tick.agent index task.name answer.1) (fun _ _ => rfl) v) ?_
  by_cases hdone : (TaskResult.status answer.1).isDone = true
  · simp only [hdone, if_true]
    exact (tick.endCourse_still index task _ answer.2 _).mapped _
  · simp only [hdone]
    exact .refl _

theorem dispatchCourse_still (index : Nat) (resumed : Bool) (i : Instruction Nat K A)
    (s : AgentState) (w : World K A) :
    (tick.dispatchCourse index resumed i s w).Keeps World.Still w := by
  obtain ⟨op, yes, no⟩ := i
  cases op with
  | task task =>
    exact (tick.visitCourse_still index task resumed s.board w).mapped _
  | subTree link =>
    refine ⟨.refl w, fun result v => ?_⟩
    cases result with
    | ok status => exact .refl v
    | error e => exact .log (fun _ _ => rfl) v
  | query q =>
    simp only [dispatchCourse, dispatch]
    split
    · exact .refl w
    · exact .refl w
    · exact .log (fun _ _ => rfl) w
    · exact .log (fun _ _ => rfl) w
  | randomBranch table =>
    cases table with
    | nil => exact .refl w
    | cons first rest =>
      have hdrawn : ∀ n, w.Still (w.modifyTree tick.id fun t => { t with drawn := n }) :=
        fun n => .modifyTree (f := fun t => { t with drawn := n }) (fun _ => rfl) (fun _ => rfl) w
          tick.id
      exact (hdrawn _).trans (.log (fun _ _ => rfl) _)
  | repeatStart | repeatCounter | hangingSucceed | hangingFail => exact .refl w

end Tick

/-! ## What becomes of counters -/

/-- How a walk can go on after an instruction, and what has become of the agent's counters. -/
inductive Program.Moves (p : Program K A) (j : Nat) (s : AgentState) :
    Move × AgentState → Prop where
  | goto {k : Nat} {s' : AgentState} : p.Step j s.rounds k s'.rounds → Moves p j s (.goto k, s')
  | suspend {i : Instruction Nat K A} {s' : AgentState} : p.get? j = some i → ¬ i.op.IsLoop →
      s'.rounds = s.rounds → Moves p j s (.suspend, s')
  | stop {e : RunError} {s' : AgentState} : Moves p j s (.stop e, s')

namespace Tick

variable {tick : Tick K A} {j : Nat} {i : Instruction Nat K A} {s : AgentState} {w : World K A}

omit [DecidableEq K] in
theorem moves_ofStatus (hget : tick.tree.program.get? j = some i) (hop : ¬ i.op.IsLoop)
    {s' : AgentState} (hs : s'.rounds = s.rounds) (status : Status) :
    tick.tree.program.Moves j s (.ofStatus i status, s') := by
  cases status with
  | running => exact .suspend hget hop hs
  | success =>
    exact .goto (step_ofStatus hget hop hs (show Move.ofStatus i .success = _ from rfl))
  | failure =>
    exact .goto (step_ofStatus hget hop hs (show Move.ofStatus i .failure = _ from rfl))

theorem dispatchCourse_moves (hget : tick.tree.program.get? j = some i) (resumed : Bool) :
    (tick.dispatchCourse j resumed i s w).Meets .free
      fun answer _ => tick.tree.program.Moves j s answer := by
  by_cases htask : ∃ task, i.op = .task task
  · obtain ⟨task, hop⟩ := htask
    rw [dispatchCourse, hop]
    refine Course.Meets.map (Course.meets_free _ fun answer _ => ?_)
    have hsame : ({ s with board := answer.2 } : AgentState).rounds = s.rounds := rfl
    exact moves_ofStatus hget (by simp [hop, Op.IsLoop]) hsame answer.1
  by_cases hlink : ∃ link, i.op = .subTree link
  · obtain ⟨link, hop⟩ := hlink
    simp only [dispatchCourse, hop]
    refine ⟨trivial, fun result v _ _ => ?_⟩
    cases result with
    | ok status => exact moves_ofStatus hget (by simp [hop, Op.IsLoop]) rfl status
    | error e => exact .stop
  have hcourse : tick.dispatchCourse j resumed i s w =
      .ofOutcome (tick.dispatch .mute j resumed i s w) := by
    rw [dispatchCourse]
    split
    · exact absurd ⟨_, ‹_›⟩ htask
    · exact absurd ⟨_, ‹_›⟩ hlink
    · rfl
  obtain ⟨⟨move, s'⟩, v, hdone, hleads, -⟩ := tick.dispatch_leads .mute j resumed s w
    (fun task hop => htask ⟨task, hop⟩) fun link hop => hlink ⟨link, hop⟩
  rw [hcourse, hdone]
  cases move with
  | goto k => exact .goto (dispatch_step hget hdone)
  | suspend =>
    cases hleads with
    | suspend hop _ => exact absurd ⟨_, hop⟩ htask
  | stop e => exact .stop

end Tick

end

/-! ## Accounts -/

theorem Course.Meets.both {C : Contract K A} {final final' : α → World K A → Prop}
    {course : Course K A α} (h : course.Meets C final) (h' : course.Meets .free final') :
    course.Meets C fun a w => final a w ∧ final' a w := by
  induction course with
  | done a w => exact ⟨h, h'⟩
  | cutOff w => trivial
  | call c w next ih =>
    exact ⟨h.1, fun r v hgranted hpost =>
      ih r v (h.2 r v hgranted hpost) (h'.2 r v trivial trivial)⟩

theorem Course.Meets.under {handler : Handler K A} {C : Contract K A}
    {final : α → World K A → Prop} {course : Course K A α} (h : course.Meets C final)
    (hC : ∀ {c w r w'}, C.pre c w → handler c w = .done r w' →
      C.granted c w r w' ∧ C.post c w r w') {a : α} {v : World K A}
    (hdone : course.under handler = .done a v) : final a v := by
  induction course with
  | done b w =>
    cases hdone
    exact h
  | cutOff w => cases hdone
  | call c w next ih =>
    obtain ⟨r, w', hreply, hnext⟩ := Outcome.bind_eq_done_iff.1 hdone
    obtain ⟨hgranted, hpost⟩ := hC h.1 hreply
    exact ih r w' (h.2 r w' hgranted hpost) hnext

variable [DecidableEq K]

namespace Forest

variable {F : Forest K A} {t u : TreeId} {a : K} {w v x : World K A}

/-- The track of an agent leads to where its next tick in a tree begins, with the counters that it
has. -/
def Accounted (F : Forest K A) (w : World K A) : Prop :=
  ∀ t a s, w.agent? t a = some s → (F.tree t).program.Trek (w.track t a) s.cursor s.rounds

namespace Accounted

theorem congr (hw : F.Accounted w) (hagent : ∀ t a, v.agent? t a = w.agent? t a)
    (htrack : ∀ t a, v.track t a = w.track t a) : F.Accounted v := by
  intro t a s hs
  rw [hagent] at hs
  rw [htrack]
  exact hw t a s hs

theorem still (hw : F.Accounted w) (h : w.Still v) : F.Accounted v := hw.congr h.agents h.track

theorem checkOut (hw : F.Accounted w) (t : TreeId) (a : K) : F.Accounted (w.checkOut t a) := by
  intro u b s hs
  rw [World.agent?_checkOut] at hs
  split at hs
  · cases hs
  · exact hw u b s hs

theorem checkIn (hw : F.Accounted w) {s : AgentState}
    (hs : (F.tree t).program.Trek (w.track t a) s.cursor s.rounds) :
    F.Accounted (w.checkIn t a s) := by
  intro u b s' hs'
  rw [World.agent?_checkIn] at hs'
  split at hs'
  · rename_i hsame
    obtain ⟨rfl, rfl⟩ := hsame
    cases hs'
    exact hs
  · exact hw u b s' hs'

/-- What a tick begins with is accounted for, whether the tree knows the agent or not. -/
theorem state (hw : F.Accounted w) (t : TreeId) (a : K) :
    (F.tree t).program.Trek (w.track t a) (w.state t a).cursor (w.state t a).rounds := by
  rw [World.state]
  cases hagent : w.agent? t a with
  | none => exact .anew _ _
  | some s => exact hw t a s hagent

/-- A dispatch by a tick that has the state of its agent in its hands. -/
theorem dispatched (hw : F.Accounted w) (hrewound : w.Rewound t a) (j : Nat) :
    F.Accounted (w.log (.dispatched t a j)) := by
  intro u b s hs
  by_cases hsame : t = u ∧ a = b
  · obtain ⟨rfl, rfl⟩ := hsame
    rw [hrewound s hs]
    exact .anew _ _
  · rw [World.track_dispatched_of_ne hsame]
    exact hw u b s hs

theorem enter (hw : F.Accounted w) (t : TreeId) (a : K) : F.Accounted (w.enter t a) :=
  hw.congr (fun u b => World.agent?_enter w t u a b)
    fun _ _ => World.track_log (fun _ _ => rfl) _

theorem leave (hw : F.Accounted w) {r : Except RunError Status}
    (hrewound : rewinds r = true → w.Rewound t a) : F.Accounted (w.leave t a r) := by
  intro u b s hs
  rw [World.agent?_leave] at hs
  by_cases hsame : t = u ∧ a = b
  · obtain ⟨rfl, rfl⟩ := hsame
    cases hr : rewinds r with
    | true =>
      rw [hrewound hr s hs]
      exact .anew _ _
    | false =>
      rw [World.track_leave_of_not_rewinds hr]
      exact hw t a s hs
  · rw [World.track_leave_of_ne hsame]
    exact hw u b s hs

end Accounted

/-- From one world to another the accounts are kept, and the ticks under way find all as it
was. -/
structure Minds (F : Forest K A) (w v : World K A) : Prop where
  accounted : F.Accounted v
  awaits : ∀ u, (w.tree u).running = true → w.Awaits u v

theorem Minds.refl (hw : F.Accounted w) : F.Minds w w := ⟨hw, fun u _ => .refl u w⟩

theorem Minds.trans (h : F.Minds w v) (h' : F.Minds v x) : F.Minds w x :=
  ⟨h'.accounted, fun u hu => (h.awaits u hu).trans (h'.awaits u ((h.awaits u hu).running hu))⟩

theorem Minds.still (h : F.Minds w v) (h' : v.Still x) : F.Minds w x :=
  h.trans ⟨h.accounted.still h', fun u _ => .still h' u⟩

/-- Operations keep the accounts, and do not concern the ticks under way. -/
def accounting (F : Forest K A) : Contract K A where
  pre _ w := F.Accounted w
  post _ w _ v := F.Minds w v

/-- A course that changes nothing by itself, whatever it calls. -/
theorem Minds.course {course : Course K A α} (hcourse : course.Keeps World.Still v)
    (h : F.Minds w v) : course.Meets F.accounting fun _ x => F.Minds w x := by
  induction course generalizing v with
  | done a x => exact h.still hcourse
  | cutOff x => trivial
  | call c x next ih =>
    have hx := h.still hcourse.1
    exact ⟨hx.accounted, fun r x' _ hpost => ih r x' (hcourse.2 r x') (hx.trans hpost)⟩

/-! ## Ticks -/

/-- A tick that began in one world has come to another, with the agent's cursor and counters in
its hands. -/
structure Walking (F : Forest K A) (t : TreeId) (a : K) (w v : World K A) (j : Nat) (c : Rounds) :
    Prop where
  trek : (F.tree t).program.Trek (v.track t a) j c
  accounted : F.Accounted v
  running : (v.tree t).running = true
  rewound : v.Rewound t a
  others : ∀ u, t ≠ u → (w.tree u).running = true → w.Awaits u v

/-- What a step of a tick has come to. -/
def WalksOn (F : Forest K A) (t : TreeId) (a : K) (w v : World K A) : Progress → Prop
  | .underway f => F.Walking t a w v f.cursor f.state.rounds
  | .ended _ s => F.Walking t a w v s.cursor s.rounds

theorem Walking.still {j : Nat} {c : Rounds} (h : F.Walking t a w v j c) (h' : v.Still x) :
    F.Walking t a w x j c where
  trek := h'.track t a ▸ h.trek
  accounted := h.accounted.still h'
  running := by rw [h'.running, h.running]
  rewound := (World.Awaits.still h' t).rewound a h.rewound
  others u hu hrunning := (h.others u hu hrunning).trans (.still h' u)

theorem Walking.back {j : Nat} {c d : Rounds} (h : F.Walking t a w v j c) :
    F.Walking t a w v 0 d := { h with trek := .anew _ _ }

theorem advanceCourse_walksOn {f : Frame} (h : F.Walking t a w v f.cursor f.state.rounds) :
    ((F.tickOf t a).advanceCourse f v).Meets F.accounting fun p x => F.WalksOn t a w x p := by
  rw [Tick.advanceCourse]
  cases hget : (F.tree t).program.get? f.cursor with
  | none => exact h.back
  | some i =>
    cases (F.tickOf t a).exhausted f with
    | some limit => exact h.back.still (.log (fun _ _ => rfl) v)
    | none =>
      have hlogged : F.Minds (v.log (.dispatched t a f.cursor))
          (v.log (.dispatched t a f.cursor)) := .refl (h.accounted.dispatched h.rewound f.cursor)
      refine Course.Meets.map (((hlogged.course ((F.tickOf t a).dispatchCourse_still f.cursor
        f.resumed i f.state _)).both (Tick.dispatchCourse_moves hget f.resumed)).imp ?_)
      rintro answer x ⟨hminds, hmoves⟩
      have hown := hminds.awaits t h.running
      have htrack : x.track t a = some f.cursor :: v.track t a :=
        (hown.track a).trans (World.track_dispatched f.cursor v)
      -- Only the agent's cursor and counters are still to be accounted for.
      have hwalking : ∀ {j c}, (F.tree t).program.Trek (some f.cursor :: v.track t a) j c →
          F.Walking t a w x j c := fun htrek =>
        { trek := htrack ▸ htrek
          accounted := hminds.accounted
          running := hown.running h.running
          rewound := hown.rewound a h.rewound
          others := fun u hu hrunning => by
            have hbefore := h.others u hu hrunning
            have hdispatched : v.Awaits u (v.log (.dispatched t a f.cursor)) := .of_tree rfl
              fun b => World.track_dispatched_of_ne (fun hsame => hu hsame.1) f.cursor v
            exact (hbefore.trans hdispatched).trans
              (hminds.awaits u ((hbefore.trans hdispatched).running hrunning)) }
      cases hmoves with
      | goto hstep => exact hwalking (h.trek.step hstep)
      | suspend hget' hop hsame => exact hwalking (hsame ▸ h.trek.stay hget' hop)
      | stop => exact hwalking (.anew _ _)

theorem performCourse_walksOn (bound : Nat) {s : AgentState}
    (h : F.Walking t a w v s.cursor s.rounds) :
    ((F.tickOf t a).performCourse bound s v).Meets F.accounting
      fun answer x => F.Walking t a w x answer.2.cursor answer.2.rounds := by
  rw [Tick.performCourse]
  split
  · exact h.back
  · refine Tick.walkCourse_meets (J := fun f x => F.Walking t a w x f.cursor f.state.rounds)
      (fun f x hx => (advanceCourse_walksOn hx).imp fun p x' hp => ?_) bound h
    cases p <;> exact hp

/-! ## Operations -/

theorem awaits_enter (htu : t ≠ u) (w : World K A) (a : K) : w.Awaits u (w.enter t a) :=
  .of_tree (World.tree_enter_of_ne w a htu) fun _ => World.track_log (fun _ _ => rfl) _

theorem awaits_leave (htu : t ≠ u) (w : World K A) (a : K) (r : Except RunError Status) :
    w.Awaits u (w.leave t a r) :=
  .of_tree (World.tree_leave_of_ne w a r htu)
    fun _ => World.track_leave_of_ne (fun hsame => htu hsame.1) r w

/-- A tick that begins takes the state of its agent out of the tree, which is accounted for. -/
theorem walking_begin (hw : F.Accounted w) (t : TreeId) (a : K) :
    F.Walking t a w ((w.enter t a).checkOut t a) (w.state t a).cursor (w.state t a).rounds where
  trek := by
    have htrack : ((w.enter t a).checkOut t a).track t a = w.track t a :=
      World.track_log (fun _ _ => rfl) _
    rw [htrack]
    exact hw.state t a
  accounted := (hw.enter t a).checkOut t a
  running := by simp
  rewound s hs := by
    rw [World.agent?_checkOut_self] at hs
    cases hs
  others u hu _ := (awaits_enter hu w a).trans (.checkOut _ u t a)

theorem runCourse_minds (bound : Nat) (t : TreeId) (a : K) (hw : F.Accounted w) :
    (F.runCourse bound t a w).Meets F.accounting fun _ v => F.Minds w v := by
  rw [runCourse]
  split
  · exact (Minds.refl hw).still (.log (fun _ _ => rfl) w)
  rename_i hidle
  have hother : ∀ {u}, (w.tree u).running = true → t ≠ u :=
    fun hrunning heq => hidle (heq ▸ hrunning)
  have hpoisoned : ∀ {v}, F.Accounted v → F.Accounted (v.leave t a (.error .poisoned)) :=
    fun hv => hv.leave fun hrewinds => absurd hrewinds (by decide)
  split
  · exact ⟨hpoisoned (hw.enter t a), fun u hu =>
      (awaits_enter (hother hu) w a).trans (awaits_leave (hother hu) _ a _)⟩
  refine (((performCourse_walksOn bound (walking_begin hw t a)).both
    ((F.tickOf t a).performCourse_concluded bound _ _)).bind ?_)
  rintro answer x ⟨hx, hconcluded⟩
  have hrest : ∀ {u}, (w.tree u).running = true → w.Awaits u x :=
    fun hu => hx.others _ (hother hu) hu
  split
  · exact ⟨hpoisoned hx.accounted, fun u hu =>
      (hrest hu).trans (awaits_leave (hother hu) x a _)⟩
  · refine ⟨(hx.accounted.checkIn hx.trek).leave fun hrewinds s hs => ?_, fun u hu =>
      ((hrest hu).trans (.checkIn fun htu => absurd htu (hother hu))).trans
        (awaits_leave (hother hu) _ a _)⟩
    rw [World.agent?_checkIn_self] at hs
    cases hs
    rcases hconcluded with ⟨-, hresult⟩ | ⟨-, hcursor, -⟩
    · rw [hresult] at hrewinds
      cases hrewinds
    · exact hcursor

theorem Minds.checkOut (hw : F.Accounted w) (t : TreeId) (a : K) : F.Minds w (w.checkOut t a) :=
  ⟨hw.checkOut t a, fun u _ => .checkOut w u t a⟩

/-- What is put into a tree is accounted for if the next tick begins at the first instruction. -/
theorem minds_checkIn (h : F.Minds w v) (t : TreeId) (a : K) {s : AgentState}
    (hs : s.cursor = 0) : F.Minds w (v.checkIn t a s) :=
  h.trans ⟨h.accounted.checkIn (hs ▸ .anew _ _), fun _ _ => .checkIn fun _ _ => hs⟩

theorem abortCourse_minds (t : TreeId) (a : K) (hw : F.Accounted w) :
    (F.abortCourse t a w).Meets F.accounting fun _ v => F.Minds w v := by
  rw [abortCourse]
  split
  · exact (Minds.refl hw).still (.log (fun _ _ => rfl) w)
  cases w.agent? t a with
  | none => exact .refl hw
  | some s =>
    have hout := Minds.checkOut hw t a
    have hcancel : (F.cancelCourse t a s (w.checkOut t a)).Meets F.accounting
        fun _ v => F.Minds w v := by
      rw [cancelCourse]
      split
      · exact hout.course ((F.tickOf t a).endCourse_still _ _ _ _ _)
      · exact ⟨hout.accounted, fun _ _ _ hpost => hout.trans hpost⟩
      · exact hout
    refine hcancel.bind fun board v hv => ?_
    split
    · exact hv
    · exact minds_checkIn hv t a rfl

theorem removeCourse_minds (t : TreeId) (a : K) (hw : F.Accounted w) :
    (F.removeCourse t a w).Meets F.accounting fun _ v => F.Minds w v := by
  rw [removeCourse]
  split
  · exact .refl hw
  cases w.agent? t a with
  | none => exact .refl hw
  | some s =>
    have hout := Minds.checkOut hw t a
    simp only
    split
    · exact ⟨hout.accounted, fun _ _ _ hpost => hout.trans hpost⟩
    · exact hout

theorem update_minds (t : TreeId) (a : K) (edit : Edit) (hw : F.Accounted w) :
    F.Minds w (update t a edit w).2 := by
  have hin : ∀ board, F.Minds w (w.checkIn t a { w.state t a with board := board }) := by
    intro board
    refine ⟨hw.checkIn (hw.state t a), fun u _ => .checkIn fun htu hrewound => ?_⟩
    subst htu
    change (w.state t a).cursor = 0
    rw [World.state]
    cases hagent : w.agent? t a with
    | none => rfl
    | some s => exact hrewound s hagent
  rw [Forest.update]
  split
  · exact .refl hw
  · simp only
    split
    · exact (hin (w.state t a).board).still
        (.modifyTree (f := fun s => { s with poisoned := true }) (fun _ => rfl) (fun _ => rfl) _ t)
    · exact hin _

theorem fulfils_accounting (F : Forest K A) : F.Fulfils F.accounting := by
  intro n c w hw
  cases c with
  | run t a => exact (runCourse_minds n t a hw).imp fun _ _ h _ => h
  | abort t a => exact (abortCourse_minds t a hw).imp fun _ _ h _ => h
  | remove t a => exact (removeCourse_minds t a hw).imp fun _ _ h _ => h
  | update t a edit => exact fun _ => update_minds t a edit hw

theorem serve_minds {n : Nat} {c : Call K} {r : c.Reply} (hw : F.Accounted w)
    (h : F.serve n c w = .done r v) : F.Minds w v := by
  obtain ⟨inner, hdoes⟩ := serve_eq_done_iff.1 h
  exact (hdoes.within F.fulfils_accounting hw (fun _ _ => trivial) (.self _)).2

/-- A walk is accounted for wherever it has come to. -/
theorem walk_walking {n k : Nat} {f f' : Frame}
    (h : F.Walking t a w v f.cursor f.state.rounds)
    (hwalk : (F.tickOf t a).walk (F.serve n) k f v = .done (.underway f') x) :
    F.Walking t a w x f'.cursor f'.state.rounds := by
  induction k generalizing f v with
  | zero =>
    cases hwalk
    exact h
  | succ k ih =>
    rw [Tick.walk_succ, Outcome.bind_eq_done_iff] at hwalk
    obtain ⟨p, y, hadvance, hrest⟩ := hwalk
    rw [Tick.advance_eq_under] at hadvance
    have hp := (advanceCourse_walksOn h).under
      (fun hpre hserve => ⟨trivial, serve_minds hpre hserve⟩) hadvance
    cases p with
    | underway f₁ => exact ih hp hrest
    | ended r s => cases hrest

/-! ## Every moment -/

/-- The worlds in which no operation is under way. At first no tree has agents; an operation that is
over may be followed by others, and by changes outside the trees. -/
inductive Between (F : Forest K A) : World K A → Prop where
  | fresh {w : World K A} : (∀ t a, w.agent? t a = none) → Between F w
  | outside {w v : World K A} :
      Between F w → v.trees = w.trees → v.journal = w.journal → Between F v
  | after {n : Nat} {c : Call K} {w w' : World K A} {r : c.Reply} :
      Between F w → F.serve n c w = .done r w' → Between F w'

/-- A call is issued in a world: between operations, or in the course of one by a hook or a
link. -/
inductive Occurs (F : Forest K A) : Call K → World K A → Prop where
  | between {c : Call K} {w : World K A} : F.Between w → Occurs F c w
  | issued {n : Nat} {c d : Call K} {w v : World K A} :
      Occurs F c w → (F.course n c w).Issues (F.serve n) d v → Occurs F d v

theorem Between.accounted (h : F.Between w) : F.Accounted w := by
  induction h with
  | fresh hnone =>
    intro t a s hs
    rw [hnone] at hs
    cases hs
  | outside _ htrees hjournal ih => exact ih.still (.of_trees htrees hjournal)
  | after _ hserve ih => exact (serve_minds ih hserve).accounted

theorem Occurs.accounted {c : Call K} (h : F.Occurs c w) : F.Accounted w := by
  induction h with
  | between hw => exact hw.accounted
  | @issued n c d w v _ hissues ih =>
    exact (F.fulfils_accounting n c w ih).issues
      (fun hw hserve => ⟨trivial, serve_minds hw hserve⟩) hissues

end Forest

end TickTree

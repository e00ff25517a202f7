import Mathlib.Logic.Relation
import TickTree.Proofs.Errands
import TickTree.Proofs.Liveness
import TickTree.Proofs.Quiet

/-!
# Ticks between calls

By itself a tick changes nothing about the trees but how many random words are used, and logs
what it does and sees (`World.Steps`). Every stretch of a tick between calls is made of such
steps (`Tick.performCourse_steps`), and keeps every relation that does not depend on them
(`Tick.performCourse_keeps`). A property of worlds that does not depend on them
(`World.Inert`) holds at each call that a hook issues, if it held before and the calls keep it
(`Hook.course_meets`), and it holds after every instruction that is no link
(`Tick.dispatchCourse_meets`).
-/

namespace TickTree

variable {K A α : Type}

/-- A property of worlds that depends neither on what lies outside the trees nor on the random
words used. -/
structure World.Inert (I : World K A → Prop) : Prop where
  outside : ∀ {w v : World K A}, I w → v.trees = w.trees → I v
  drawn : ∀ {w : World K A}, I w → ∀ (t : TreeId) (n : Nat),
    I (w.modifyTree t fun s => { s with drawn := n })

/-! ## What a tick does by itself -/

/-- A tick logs such an event by itself, and none of these tells whether a tree is ticking. -/
def Event.isInner : Event K → Bool
  | .entered .. | .refused .. | .left .. | .looked .. | .abortSkipped .. => false
  | _ => true

/-- One thing that a tick does to the world by itself. If it looks whether a tree is ticking, it
logs what it has seen. -/
inductive World.Step : World K A → World K A → Prop where
  | outside {w v : World K A} : v.trees = w.trees → v.journal = w.journal → Step w v
  | drawn {w : World K A} (t : TreeId) (n : Nat) :
      Step w (w.modifyTree t fun s => { s with drawn := n })
  | logged {w : World K A} {e : Event K} : e.isInner = true → Step w (w.log e)
  | looked {w : World K A} (t : TreeId) (a : K) :
      Step w (w.log (.looked t a (w.tree t).running))

/-- What a tick does to the world by itself, one thing after the other. -/
abbrev World.Steps : World K A → World K A → Prop := Relation.ReflTransGen World.Step

theorem World.Inert.steps {I : World K A → Prop} (hI : World.Inert I) {w v : World K A}
    (hw : I w) (h : World.Steps w v) : I v := by
  induction h with
  | refl => exact hw
  | tail _ hstep ih =>
    cases hstep with
    | outside htrees _ => exact hI.outside ih htrees
    | drawn t n => exact hI.drawn ih t n
    | logged | looked => exact hI.outside ih rfl

/-! ## What hooks may ask for -/

/-- A call may be issued wherever a property holds, and keeps it. -/
def Contract.Lets (C : Contract K A) (I : World K A → Prop) (c : Call K) : Prop :=
  ∀ w, I w → C.pre c w ∧ ∀ r w', C.granted c w r w' → C.post c w r w' → I w'

/-- A request that may be made wherever a property holds, and keeps it. -/
def Request.Allowed (C : Contract K A) (I : World K A → Prop) : Request K A → Prop
  | .call c => C.Lets I c
  | _ => True

theorem Hook.Asks.imp {p q : Request K A → Prop} {hook : Hook K A α} (h : hook.Asks p)
    (himp : ∀ r, p r → q r) : hook.Asks q := by
  induction h with
  | done a => exact .done a
  | ask hr _ ih => exact .ask (himp _ hr) ih

theorem RunnableTask.Asks.imp {p q : Request K A → Prop} {task : RunnableTask K A}
    (h : task.Asks p) (himp : ∀ r, p r → q r) : task.Asks q :=
  ⟨fun hstart a => (h.start hstart a).imp himp, fun a => (h.run a).imp himp,
    fun hfinish a status => (h.finish hfinish a status).imp himp⟩

/-! ## What instructions come to -/

/-- How a walk can go on after an instruction that is no link, and what has become of the
agent's counters. -/
inductive Instruction.Leads (i : Instruction Nat K A) (index : Nat) (s : AgentState) :
    Move × AgentState → Prop where
  | next {k : Nat} {s' : AgentState} : k ∈ i.nexts → s'.counters = s.counters →
      Leads i index s (.goto k, s')
  | start {c : Nat} : i.op = .repeatStart c → Leads i index s (.goto i.onSuccess, s.setRounds c 0)
  | count {goal : UInt32} {k body : Nat} : i.op = .repeatCounter goal body → k ∈ i.nexts →
      Leads i index s (.goto k, s.setRounds index (s.rounds index + 1))
  | suspend {task : RunnableTask K A} {s' : AgentState} : i.op = .task task →
      s'.counters = s.counters → Leads i index s (.suspend, s')
  | poisoned : Leads i index s (.stop .poisoned, s)
  | corrupt {reason : String} : i.op = .randomBranch [] →
      Leads i index s (.stop (.corruptProgram index reason), s)

theorem Instruction.exit_mem_nexts (i : Instruction Nat K A) (status : Status) :
    i.exit status ∈ i.nexts := by
  cases status with
  | success => exact .head _
  | failure | running => exact .tail _ (.head _)

variable [DecidableEq K]

namespace Tick

variable {i : Instruction Nat K A} {index : Nat} {s : AgentState}

omit [DecidableEq K] in
theorem leads_ofStatus {task : RunnableTask K A} (hop : i.op = .task task) (status : Status)
    {s' : AgentState} (hs : s'.counters = s.counters) :
    i.Leads index s (.ofStatus i status, s') := by
  cases status with
  | running => exact .suspend hop hs
  | success | failure => exact .next (i.exit_mem_nexts _) hs

/-- An instruction that neither visits a task nor is a link goes on as its kind says, and
changes nothing about the trees but how many random words are used. -/
theorem dispatch_leads (tick : Tick K A) (handler : Handler K A) (index : Nat) (resumed : Bool)
    (s : AgentState) (w : World K A) (htask : ∀ task, i.op ≠ .task task)
    (hlink : ∀ link, i.op ≠ .subTree link) :
    ∃ answer w', tick.dispatch handler index resumed i s w = .done answer w' ∧
      i.Leads index s answer ∧ World.Steps w w' := by
  have hyes : i.onSuccess ∈ i.nexts := .head _
  have hno : i.onFail ∈ i.nexts := .tail _ (.head _)
  obtain ⟨op, yes, no⟩ := i
  cases op with
  | task task => exact absurd rfl (htask task)
  | subTree link => exact absurd rfl (hlink link)
  | query q =>
    simp only [dispatch]
    cases hfind : q.find s.board (tick.tree.registry.map w.registry) with
    | error e =>
      obtain rfl : e = .poisoned := Query.find_error hfind
      exact ⟨_, _, rfl, .poisoned, .single (.logged rfl)⟩
    | ok found =>
      cases found with
      | none => exact ⟨_, _, rfl, .next hno rfl, .single (.logged rfl)⟩
      | some passed =>
        cases passed with
        | true => exact ⟨_, _, rfl, .next hyes rfl, .refl⟩
        | false => exact ⟨_, _, rfl, .next hno rfl, .refl⟩
  | randomBranch table =>
    cases table with
    | nil => exact ⟨_, _, rfl, .corrupt rfl, .refl⟩
    | cons first rest =>
      obtain ⟨⟨place, drawn⟩, hdraw⟩ : ∃ p,
          Random.draw tick.tree.words (rest.length + 1) (w.tree tick.id).drawn = p := ⟨_, rfl⟩
      refine ⟨_, _, dispatch_randomBranch _ _ rfl _ _ _ _ hdraw, .next ?_ rfl,
        .tail (.single (.drawn tick.id drawn)) (.logged rfl)⟩
      exact .tail _ (.tail _ (getD_mem_table first rest place))
  | repeatStart counter => exact ⟨_, _, rfl, .start rfl, .refl⟩
  | repeatCounter goal body =>
    refine ⟨_, _, rfl, .count rfl ?_, .refl⟩
    split
    · exact hyes
    · exact .tail _ (.tail _ (.head _))
  | hangingSucceed => exact ⟨_, _, rfl, .next hyes rfl, .refl⟩
  | hangingFail => exact ⟨_, _, rfl, .next hno rfl, .refl⟩

end Tick

/-! ## Under a contract -/

section

variable {C : Contract K A} {I : World K A → Prop} {w : World K A}

theorem Request.course_meets (hI : World.Inert I) {r : Request K A} (hr : r.Allowed C I)
    (hw : I w) (board : Blackboard) : (r.course board w).Meets C fun _ w' => I w' := by
  cases r with
  | call c => exact ⟨(hr w hw).1, (hr w hw).2⟩
  | board | setBoard => exact hw
  | ambient | setAmbient | registry | inspect | note => exact hI.outside hw rfl

/-- What holds when a hook is called holds whenever it issues a call, and when it is done. -/
theorem Hook.course_meets (hI : World.Inert I) {hook : Hook K A α}
    (hq : hook.Asks (Request.Allowed C I)) (hw : I w) (board : Blackboard) :
    (hook.course board w).Meets C fun _ w' => I w' := by
  induction hook generalizing board w with
  | done a => exact hw
  | ask r next ih =>
    exact (r.course_meets hI hq.inv.1 hw board).bind fun reply w' hw' =>
      ih reply.1 (hq.inv.2 reply.1) hw' reply.2

namespace Tick

variable {tick : Tick K A} {task : RunnableTask K A} {index : Nat}

theorem beginCourse_meets (hI : World.Inert I) (hq : task.Asks (Request.Allowed C I)) (hw : I w)
    (board : Blackboard) : (tick.beginCourse index task board w).Meets C fun _ w' => I w' := by
  rw [beginCourse]
  cases hstart : task.start with
  | none => exact hw
  | some hook =>
    have hstarted : I (w.log (.started tick.id tick.agent index task.name)) := hI.outside hw rfl
    exact (Hook.course_meets hI (hq.start hstart _) hstarted board).map

theorem endCourse_meets (hI : World.Inert I) {status : Status}
    (hq : ∀ {hook}, task.finish = some hook →
      (hook tick.agent status).Asks (Request.Allowed C I)) (hw : I w)
    (board : Blackboard) : (tick.endCourse index task status board w).Meets C fun _ w' => I w' := by
  rw [endCourse]
  cases hfinish : task.finish with
  | none => exact hw
  | some hook =>
    have hfinished : I (w.log (.finished tick.id tick.agent index task.name status)) :=
      hI.outside hw rfl
    exact (Hook.course_meets hI (hq hfinish) hfinished board).map

theorem visitCourse_meets (hI : World.Inert I) (hq : task.Asks (Request.Allowed C I)) (hw : I w)
    (resumed : Bool) (board : Blackboard) :
    (tick.visitCourse index task resumed board w).Meets C fun _ w' => I w' := by
  have hbegin : (if resumed then .done board w
      else tick.beginCourse index task board w).Meets C fun _ w' => I w' := by
    cases resumed with
    | true => exact hw
    | false => exact beginCourse_meets hI hq hw board
  refine hbegin.bind fun board w hw => ?_
  refine (Hook.course_meets hI (hq.run _) hw board).bind fun answer w hw => ?_
  have hran : I (w.log (.ran tick.id tick.agent index task.name answer.1)) := hI.outside hw rfl
  by_cases hdone : (TaskResult.status answer.1).isDone = true
  · simp only [hdone, if_true]
    exact (endCourse_meets hI (fun hfinish => hq.finish hfinish _ _) hran answer.2).map
  · simp only [hdone]
    exact hran

/-- What holds before an instruction that is no link holds whenever a hook issues a call, and
when it is done. -/
theorem dispatchCourse_meets (hI : World.Inert I) {i : Instruction Nat K A}
    (hq : ∀ {task}, i.op = .task task → task.Asks (Request.Allowed C I))
    (hlink : ∀ link, i.op ≠ .subTree link) (hw : I w) (resumed : Bool) (s : AgentState) :
    (tick.dispatchCourse index resumed i s w).Meets C
      fun answer w' => i.Leads index s answer ∧ I w' := by
  by_cases htask : ∃ task, i.op = .task task
  · obtain ⟨task, hop⟩ := htask
    rw [dispatchCourse, hop]
    exact (visitCourse_meets hI (hq hop) hw resumed s.board).bind
      fun answer w' hw' => ⟨leads_ofStatus hop answer.1 rfl, hw'⟩
  · have hcourse : tick.dispatchCourse index resumed i s w =
        .ofOutcome (tick.dispatch .mute index resumed i s w) := by
      rw [dispatchCourse]
      split
      · exact absurd ⟨_, ‹_›⟩ htask
      · exact absurd ‹_› (hlink _)
      · rfl
    obtain ⟨answer, w', hdone, hleads, hsteps⟩ :=
      tick.dispatch_leads .mute index resumed s w (fun task hop => htask ⟨task, hop⟩) hlink
    rw [hcourse, hdone]
    exact ⟨hleads, hI.steps hw hsteps⟩

/-- What each step of a walk keeps holds until the walk ends, and then what its last step
says. -/
theorem walkCourse_meets {J : Frame → World K A → Prop}
    {final : Except RunError Status × AgentState → World K A → Prop}
    (hstep : ∀ f w, J f w → (tick.advanceCourse f w).Meets C fun p w' =>
      match p with
      | .underway f' => J f' w'
      | .ended result s => final (result, s) w')
    (n : Nat) {f : Frame} (hw : J f w) : (tick.walkCourse n f w).Meets C final := by
  induction n generalizing f w with
  | zero => trivial
  | succ n ih =>
    refine (hstep f w hw).bind fun p w' hp => ?_
    cases p with
    | underway f' => exact ih hp
    | ended result s => exact hp

/-- What holds before a tick holds after it, if it holds across whatever its hooks ask for and
across its ticks of linked trees. -/
theorem performCourse_meets (hI : World.Inert I)
    (hq : ∀ {index i task}, tick.tree.program.get? index = some i → i.op = .task task →
      task.Asks (Request.Allowed C I))
    (hlets : ∀ {index i link}, tick.tree.program.get? index = some i → i.op = .subTree link →
      C.Lets I (.run link.tree tick.agent))
    (hw : I w) (bound : Nat) (s : AgentState) :
    (tick.performCourse bound s w).Meets C fun _ w' => I w' := by
  have hadvance : ∀ f w, I w → (tick.advanceCourse f w).Meets C fun _ w' => I w' := by
    intro f w hw
    rw [advanceCourse]
    cases hget : tick.tree.program.get? f.cursor with
    | none => exact hw
    | some i =>
      cases tick.exhausted f with
      | some limit => exact hI.outside hw rfl
      | none =>
        have hlogged : I (w.log (.dispatched tick.id tick.agent f.cursor)) := hI.outside hw rfl
        by_cases hlink : ∃ link, i.op = .subTree link
        · obtain ⟨link, hop⟩ := hlink
          obtain ⟨hpre, hafter⟩ := hlets hget hop _ hlogged
          simp only [dispatchCourse, hop]
          refine ⟨hpre, fun result w' hgranted hpost => ?_⟩
          have hw' := hafter result w' hgranted hpost
          cases result with
          | ok status => exact hw'
          | error e => exact hI.outside hw' rfl
        · exact Course.Meets.map ((dispatchCourse_meets hI (hq hget)
            (fun link hop => hlink ⟨link, hop⟩) hlogged f.resumed f.state).imp fun _ _ h => h.2)
  rw [performCourse]
  split
  · exact hw
  · refine walkCourse_meets (J := fun _ w => I w) (fun f w hw => ?_) bound hw
    exact (hadvance f w hw).imp fun p w' hw' => by cases p <;> exact hw'

end Tick

end

/-! ## Whatever is called -/

/-- The contract that says nothing. -/
def Contract.free : Contract K A where
  pre _ _ := True
  post _ _ _ _ := True

omit [DecidableEq K] in
theorem Course.meets_free {final : α → World K A → Prop} (course : Course K A α)
    (h : ∀ a w, final a w) : course.Meets .free final := by
  induction course with
  | done a w => exact h a w
  | cutOff w => trivial
  | call c w next ih => exact ⟨trivial, fun r w' _ _ => ih r w'⟩

omit [DecidableEq K] in
theorem Course.Meets.under_free {handler : Handler K A} {final : α → World K A → Prop}
    {course : Course K A α} (h : course.Meets .free final) {a : α} {w : World K A}
    (hdone : course.under handler = .done a w) : final a w := by
  induction course with
  | done b v =>
    cases hdone
    exact h
  | cutOff v => cases hdone
  | call c v next ih =>
    obtain ⟨r, v', -, hnext⟩ := Outcome.bind_eq_done_iff.1 hdone
    exact ih r v' (h.2 r v' trivial trivial) hnext

/-- A walk that has ended keeps its agent suspended if that is its result. -/
def Progress.Settled : Progress → Prop
  | .underway _ => True
  | .ended result s => s.paused = true ↔ result = .ok .running

/-- A walk that has ended keeps its agent suspended and answers Running, or has rewound it. -/
def Progress.Concluded : Progress → Prop
  | .underway _ => True
  | .ended result s => (s.paused = true ∧ result = .ok .running) ∨
      (s.paused = false ∧ s.cursor = 0 ∧ result ≠ .ok .running)

theorem Progress.Concluded.settled {p : Progress} (h : p.Concluded) : p.Settled := by
  cases p with
  | underway f => trivial
  | ended result s =>
    rcases h with ⟨hpaused, hresult⟩ | ⟨hpaused, -, hresult⟩
    · exact iff_of_true hpaused hresult
    · exact iff_of_false (by simp [hpaused]) hresult

namespace Tick

variable (tick : Tick K A)

omit [DecidableEq K] in
theorem concluded_rewind {result : Except RunError Status} (h : result ≠ .ok .running)
    (s : AgentState) : (Progress.ended result s.rewind).Concluded := .inr ⟨rfl, rfl, h⟩

omit [DecidableEq K] in
theorem resultAt_ne_running (index : Nat) : tick.resultAt index ≠ .ok .running := by
  rw [resultAt, Program.terminalStatus]
  split
  · rename_i status hstatus
    split at hstatus
    · cases hstatus
      simp
    · split at hstatus <;> cases hstatus
      simp
  · simp

omit [DecidableEq K] in
theorem concluded_follow (f : Frame) (answer : Move × AgentState) :
    (follow f answer).Concluded := by
  obtain ⟨move, s⟩ := answer
  cases move with
  | goto index => trivial
  | suspend => exact .inl ⟨rfl, rfl⟩
  | stop e => exact concluded_rewind (by simp) s

/-- A tick keeps its agent suspended or rewinds it, and answers accordingly. -/
theorem performCourse_concluded (bound : Nat) (s : AgentState) (w : World K A) :
    (tick.performCourse bound s w).Meets .free
      fun answer _ => (Progress.ended answer.1 answer.2).Concluded := by
  have hadvance : ∀ f w, (tick.advanceCourse f w).Meets .free fun p _ => p.Concluded := by
    intro f w
    rw [advanceCourse]
    split
    · exact concluded_rewind (tick.resultAt_ne_running f.cursor) f.state
    · split
      · exact concluded_rewind (by simp) f.state
      · exact Course.Meets.map (Course.meets_free _ fun answer _ => concluded_follow f answer)
  rw [performCourse]
  split
  · exact concluded_rewind (by simp) s
  · refine walkCourse_meets (J := fun _ _ => True)
      (fun f w _ => (hadvance f w).imp fun p w' hp => ?_) bound trivial
    cases p with
    | underway f' => trivial
    | ended result s' => exact hp

/-- A tick keeps its agent suspended exactly if it answers Running. -/
theorem performCourse_settled (bound : Nat) (s : AgentState) (w : World K A) :
    (tick.performCourse bound s w).Meets .free
      fun answer _ => (Progress.ended answer.1 answer.2).Settled :=
  (tick.performCourse_concluded bound s w).imp fun _ _ h => h.settled

/-- What a tick that comes to a result has rewound begins anew. -/
theorem perform_rewound {handler : Handler K A} {bound : Nat} {s s' : AgentState}
    {w w' : World K A} {result : Except RunError Status}
    (h : tick.perform handler bound s w = .done (result, s') w') (hresult : result ≠ .ok .running) :
    s'.cursor = 0 ∧ s'.paused = false := by
  rw [perform_eq_under] at h
  rcases (tick.performCourse_concluded bound s w).under_free h with
    ⟨-, hrunning⟩ | ⟨hpaused, hcursor, -⟩
  · exact absurd hrunning hresult
  · exact ⟨hcursor, hpaused⟩

end Tick

/-! ## Between calls -/

omit [DecidableEq K] in
theorem Course.Keeps.mono {R R' : World K A → World K A → Prop} {w : World K A}
    {course : Course K A α} (h : course.Keeps R w) (himp : ∀ w v, R w v → R' w v) :
    course.Keeps R' w := by
  induction course generalizing w with
  | done | cutOff => exact himp _ _ h
  | call c v next ih => exact ⟨himp _ _ h.1, fun r v' => ih r v' (h.2 r v')⟩

omit [DecidableEq K] in
theorem Hook.asks_of_forall {p : Request K A → Prop} (h : ∀ r, p r) (hook : Hook K A α) :
    hook.Asks p := by
  induction hook with
  | done a => exact .done a
  | ask r next ih => exact .ask (h r) ih

omit [DecidableEq K] in
theorem RunnableTask.asks_of_forall {p : Request K A → Prop} (h : ∀ r, p r)
    (task : RunnableTask K A) : task.Asks p :=
  ⟨fun _ _ => Hook.asks_of_forall h _, fun _ => Hook.asks_of_forall h _,
    fun _ _ _ => Hook.asks_of_forall h _⟩

/-- A relation of worlds that holds across what a tick does by itself, one thing after the other,
if its hooks make only such requests. -/
structure World.Spans (p : Request K A → Prop) (R : World K A → World K A → Prop) : Prop where
  refl : ∀ w, R w w
  trans : ∀ w v u, R w v → R v u → R w u
  request : ∀ {r}, p r → ∀ board w, (r.course board w).Keeps R w
  drawn : ∀ w (t : TreeId) (n : Nat), R w (w.modifyTree t fun s => { s with drawn := n })
  logged : ∀ w {e : Event K}, e.isInner = true → R w (w.log e)

section

variable {p : Request K A → Prop} {R : World K A → World K A → Prop} {w : World K A}

theorem World.Spans.map (hR : World.Spans p R) {β : Type} {course : Course K A α}
    (h : course.Keeps R w) (f : α → β) : (course.map f).Keeps R w :=
  h.bind hR.trans fun _ v => hR.refl v

/-- What is logged before counts as part of the first stretch. -/
theorem World.Spans.after_log (hR : World.Spans p R) {course : Course K A α} {e : Event K}
    (h : course.Keeps R (w.log e)) (he : e.isInner = true) : course.Keeps R w :=
  h.from_earlier hR.trans (hR.logged w he)

theorem Hook.course_spans (hR : World.Spans p R) {hook : Hook K A α} (hq : hook.Asks p)
    (board : Blackboard) : (hook.course board w).Keeps R w := by
  induction hook generalizing board w with
  | done a => exact hR.refl w
  | ask r next ih =>
    exact (hR.request hq.inv.1 board w).bind hR.trans
      fun (reply : r.Reply × Blackboard) v => ih reply.1 (hq.inv.2 reply.1) reply.2

namespace Tick

variable (tick : Tick K A) {task : RunnableTask K A} {index : Nat}

theorem beginCourse_spans (hR : World.Spans p R) (hq : task.Asks p) (board : Blackboard) :
    (tick.beginCourse index task board w).Keeps R w := by
  rw [beginCourse]
  cases hstart : task.start with
  | none => exact hR.refl w
  | some hook =>
    exact hR.after_log (hR.map (Hook.course_spans hR (hq.start hstart _) board) _) rfl

theorem endCourse_spans (hR : World.Spans p R) (hq : task.Asks p) (status : Status)
    (board : Blackboard) : (tick.endCourse index task status board w).Keeps R w := by
  rw [endCourse]
  cases hfinish : task.finish with
  | none => exact hR.refl w
  | some hook =>
    exact hR.after_log (hR.map (Hook.course_spans hR (hq.finish hfinish _ _) board) _) rfl

theorem runCourse_spans (hR : World.Spans p R) (hq : task.Asks p) (board : Blackboard) :
    (tick.runCourse index task board w).Keeps R w := by
  refine (Hook.course_spans hR (hq.run _) board).bind hR.trans
    fun (answer : TaskResult × Blackboard) v => ?_
  refine hR.after_log (e := .ran tick.id tick.agent index task.name answer.1) ?_ rfl
  by_cases hdone : (TaskResult.status answer.1).isDone = true
  · simp only [hdone, if_true]
    exact hR.map (tick.endCourse_spans hR hq _ answer.2) _
  · simp only [hdone]
    exact hR.refl _

theorem visitCourse_spans (hR : World.Spans p R) (hq : task.Asks p) (resumed : Bool)
    (board : Blackboard) : (tick.visitCourse index task resumed board w).Keeps R w := by
  have hbegin : (if resumed then .done board w
      else tick.beginCourse index task board w).Keeps R w := by
    cases resumed with
    | true => exact hR.refl w
    | false => exact tick.beginCourse_spans hR hq board
  exact hbegin.bind hR.trans fun board v => tick.runCourse_spans hR hq board

theorem dispatchCourse_spans (hR : World.Spans p R) {i : Instruction Nat K A}
    (hq : ∀ {task}, i.op = .task task → task.Asks p) (resumed : Bool) (s : AgentState) :
    (tick.dispatchCourse index resumed i s w).Keeps R w := by
  obtain ⟨op, yes, no⟩ := i
  cases op with
  | task task => exact hR.map (tick.visitCourse_spans hR (hq rfl) resumed s.board) _
  | subTree link =>
    refine ⟨hR.refl w, fun result v => ?_⟩
    cases result with
    | ok status => exact hR.refl v
    | error e => exact hR.logged v rfl
  | query q =>
    simp only [dispatchCourse, dispatch]
    cases q.find s.board (tick.tree.registry.map w.registry) with
    | error e => exact hR.logged w rfl
    | ok found =>
      cases found with
      | none => exact hR.logged w rfl
      | some passed => cases passed <;> exact hR.refl w
  | randomBranch table =>
    cases table with
    | nil => exact hR.refl w
    | cons first rest => exact hR.trans _ _ _ (hR.drawn w tick.id _) (hR.logged _ rfl)
  | repeatStart | repeatCounter | hangingSucceed | hangingFail => exact hR.refl w

/-- The hooks of a tick make only such requests. -/
def Asks (p : Request K A → Prop) (tick : Tick K A) : Prop :=
  ∀ {index i task}, tick.tree.program.get? index = some i → i.op = .task task → task.Asks p

variable {tick}

theorem advanceCourse_spans (hR : World.Spans p R) (hq : tick.Asks p) (f : Frame) :
    (tick.advanceCourse f w).Keeps R w := by
  rw [advanceCourse]
  cases hget : tick.tree.program.get? f.cursor with
  | none => exact hR.refl w
  | some i =>
    cases tick.exhausted f with
    | some limit => exact hR.logged w rfl
    | none =>
      exact hR.after_log (hR.map (tick.dispatchCourse_spans hR (hq hget) f.resumed f.state) _) rfl

theorem walkCourse_spans (hR : World.Spans p R) (hq : tick.Asks p) (n : Nat) (f : Frame) :
    (tick.walkCourse n f w).Keeps R w := by
  induction n generalizing f w with
  | zero => exact hR.refl w
  | succ n ih =>
    refine (advanceCourse_spans hR hq f).bind hR.trans fun p v => ?_
    cases p with
    | underway f' => exact ih f'
    | ended result s => exact hR.refl v

/-- A relation that holds across what a tick does by itself holds across each stretch of it. -/
theorem performCourse_spans (hR : World.Spans p R) (hq : tick.Asks p) (bound : Nat)
    (s : AgentState) : (tick.performCourse bound s w).Keeps R w := by
  rw [performCourse]
  split
  · exact hR.refl w
  · exact walkCourse_spans hR hq bound _

end Tick

end

/-! ### Steps -/

theorem World.steps_spans : World.Spans (fun _ => True) (World.Steps (K := K) (A := A)) where
  refl _ := .refl
  trans _ _ _ := .trans
  request {r} _ board w := by
    cases r with
    | call c => exact ⟨.refl, fun _ _ => .refl⟩
    | board | setBoard => exact .refl
    | ambient | setAmbient | registry => exact .single (.outside rfl rfl)
    | inspect t a => exact .single (.looked t a)
    | note n => exact .single (.logged rfl)
  drawn _ t n := .single (.drawn t n)
  logged _ _ he := .single (.logged he)

section

variable {w : World K A}

theorem Tick.endCourse_steps (tick : Tick K A) (index : Nat) (task : RunnableTask K A)
    (status : Status) (board : Blackboard) :
    (tick.endCourse index task status board w).Keeps World.Steps w :=
  tick.endCourse_spans World.steps_spans (task.asks_of_forall fun _ => trivial) status board

/-- Between its calls a tick goes on by steps of its own. -/
theorem Tick.performCourse_steps (tick : Tick K A) (bound : Nat) (s : AgentState) :
    (tick.performCourse bound s w).Keeps World.Steps w :=
  performCourse_spans World.steps_spans
    (fun {_ _ task} _ _ => task.asks_of_forall fun _ => trivial) bound s

/-! ### Relations that are kept -/

variable {R : World K A → World K A → Prop}

/-- A relation of worlds that depends neither on what lies outside the trees nor on the random
words used. -/
structure World.InertRel (R : World K A → World K A → Prop) : Prop where
  refl : ∀ w, R w w
  trans : ∀ w v u, R w v → R v u → R w u
  inert : ∀ w, World.Inert (R w)

omit [DecidableEq K] in
theorem World.InertRel.outside (hR : World.InertRel R) {v : World K A} (h : v.trees = w.trees) :
    R w v := (hR.inert w).outside (hR.refl w) h

omit [DecidableEq K] in
theorem World.InertRel.steps (hR : World.InertRel R) {v : World K A} (h : World.Steps w v) :
    R w v := (hR.inert w).steps (hR.refl w) h

theorem Tick.endCourse_keeps (tick : Tick K A) (hR : World.InertRel R) (index : Nat)
    (task : RunnableTask K A) (status : Status) (board : Blackboard) :
    (tick.endCourse index task status board w).Keeps R w :=
  (tick.endCourse_steps index task status board).mono fun _ _ => hR.steps

theorem Tick.performCourse_keeps (tick : Tick K A) (hR : World.InertRel R) (bound : Nat)
    (s : AgentState) : (tick.performCourse bound s w).Keeps R w :=
  (tick.performCourse_steps bound s).mono fun _ _ => hR.steps

end

end TickTree

import TickTree.Proofs.Contracts
import TickTree.Proofs.Sealing

/-!
# What trees keep and what runs report

A compiled program names no instruction that is none, sets no counter that is none, and
draws from no empty table (`Node.sound_of_compile`). So a tick of a compiled tree finds
nothing wrong with the program or with the state it was handed, and leaves a state that the
next tick, abort or removal can go on with (`Tree.Keepable`). This is a contract of all
operations (`Forest.Compiled.fulfils_soundness`), and holds wherever one begins or ends
(`Forest.sound_of_begins`). The errors of a run are what is left (`Forest.Raises`).

An operation begins when none is under way, or when a hook or a link issues it. In the second
case the operation that it is part of need not come to an end (`Forest.Begins`).
-/

namespace TickTree

variable {K A α : Type}

/-! ## What a tree keeps -/

/-- A state that a tree can keep of an agent: at an instruction that can suspend a tick, or
at the first one if no tick is suspended, and with rounds of counters only. -/
structure Tree.Keepable (T : Tree K A) (s : AgentState) : Prop where
  cursor : s.cursor < T.program.length
  paused : s.paused = true → ∃ i, T.program.get? s.cursor = some i ∧
    ((∃ task, i.op = .task task) ∨ ∃ link, i.op = .subTree link)
  rewound : s.paused = false → s.cursor = 0
  counters : ∀ k ∈ s.counters.keys, T.program.IsCounter k

theorem Tree.Keepable.rewind {T : Tree K A} {s : AgentState}
    (hlength : 0 < T.program.length) (hcounters : ∀ k ∈ s.counters.keys, T.program.IsCounter k) :
    T.Keepable s.rewind := ⟨hlength, nofun, fun _ => rfl, hcounters⟩

theorem Tree.Keepable.withBoard {T : Tree K A} {s : AgentState} (h : T.Keepable s)
    (board : Blackboard) : T.Keepable { s with board := board } :=
  ⟨h.cursor, h.paused, h.rewound, h.counters⟩

theorem Tree.Keepable.new {T : Tree K A} (hlength : 0 < T.program.length) : T.Keepable {} :=
  ⟨hlength, nofun, fun _ => rfl, nofun⟩

/-- Where a walk can stand: at an instruction or at an end, and with rounds of counters only. -/
structure Tree.Walked (T : Tree K A) (f : Frame) : Prop where
  cursor : f.cursor < T.program.length ∨ Among T.program.ends f.cursor
  counters : ∀ k ∈ f.state.counters.keys, T.program.IsCounter k

theorem Tree.Keepable.begin {T : Tree K A} {s : AgentState} (h : T.Keepable s) :
    T.Walked (.begin s) := ⟨.inl h.cursor, h.counters⟩

/-! ## Errors -/

namespace Forest

variable {F : Forest K A}

/-- The errors that a run in a tree can report. -/
inductive Raises (F : Forest K A) : TreeId → RunError → Prop where
  | reentrant {t : TreeId} : Raises F t .reentrant
  | poisoned {t : TreeId} : Raises F t .poisoned
  | stepLimit {t : TreeId} {limit : Nat} :
      (F.tree t).config.effectiveLimit = some limit → Raises F t (.stepLimit limit)
  | subTree {t : TreeId} {index : Nat} {i : Instruction Nat K A} {link : Link}
      {source : RunError} : (F.tree t).program.get? index = some i → i.op = .subTree link →
      Raises F link.tree source → Raises F t (.subTree index source)

/-- No such error comes from a cursor or a program that is none. -/
theorem Raises.innermost {t : TreeId} {e : RunError} (h : F.Raises t e) :
    (∀ cursor length, e.innermost ≠ .invalidCursor cursor length) ∧
      ∀ index reason, e.innermost ≠ .corruptProgram index reason := by
  induction h with
  | reentrant | poisoned | stepLimit => exact ⟨nofun, nofun⟩
  | subTree _ _ _ ih => exact ih

/-! ## Sound worlds -/

/-- The trees of a forest are compiled from definitions, and link to each other. -/
structure Compiled (F : Forest K A) : Prop where
  compiled : ∀ {t}, t < F.trees.length → ∃ root, compile root = .ok (F.tree t).program
  linked : ∀ {t index i link}, t < F.trees.length →
    (F.tree t).program.get? index = some i → i.op = .subTree link →
      link.tree < F.trees.length

theorem Compiled.length_pos (hF : F.Compiled) {t : TreeId} (ht : t < F.trees.length) :
    0 < (F.tree t).program.length := by
  obtain ⟨root, hroot⟩ := hF.compiled ht
  exact (Node.placed_of_compile hroot).lt_length

theorem Compiled.walked (hF : F.Compiled) {t : TreeId} (ht : t < F.trees.length) {index : Nat}
    {i : Instruction Nat K A} (hget : (F.tree t).program.get? index = some i) {f : Frame}
    (hcursor : f.cursor ∈ i.nexts)
    (hcounters : ∀ k ∈ f.state.counters.keys, (F.tree t).program.IsCounter k) :
    (F.tree t).Walked f := by
  obtain ⟨root, hroot⟩ := hF.compiled ht
  refine ⟨?_, hcounters⟩
  rcases Node.goesOn_of_compile hroot index i (Nat.zero_le _) (Program.lt_length_of_get? hget) hget
    f.cursor hcursor with hin | hout
  · exact .inl hin.2
  · exact .inr hout

variable [DecidableEq K]

/-- Each tree keeps what it can go on with. -/
def Sound (F : Forest K A) (w : World K A) : Prop :=
  ∀ t a s, t < F.trees.length → w.agent? t a = some s → (F.tree t).Keepable s

theorem Sound.modifyTree {w : World K A} (hw : F.Sound w) (t : TreeId)
    {f : TreeState K → TreeState K} (hf : ∀ s, (f s).agents = s.agents) :
    F.Sound (w.modifyTree t f) := by
  intro u b s hu hagent
  rw [World.agent?_modifyTree w t hf] at hagent
  exact hw u b s hu hagent

theorem Sound.inert : World.Inert F.Sound where
  outside {w v} hw htrees t a s ht hagent := by
    refine hw t a s ht ?_
    rwa [World.agent?, World.tree, ← htrees]
  drawn hw t _ := hw.modifyTree t fun _ => rfl

theorem Sound.enter {w : World K A} (hw : F.Sound w) (t : TreeId) (a : K) :
    F.Sound (w.enter t a) :=
  fun u b s hu hagent => hw u b s hu (by rwa [World.agent?_enter] at hagent)

theorem Sound.leave {w : World K A} (hw : F.Sound w) (t : TreeId) (a : K)
    (r : Except RunError Status) : F.Sound (w.leave t a r) :=
  fun u b s hu hagent => hw u b s hu (by rwa [World.agent?_leave] at hagent)

theorem Sound.checkOut {w : World K A} (hw : F.Sound w) (t : TreeId) (a : K) :
    F.Sound (w.checkOut t a) := by
  intro u b s hu hagent
  rw [World.agent?_checkOut] at hagent
  split at hagent
  · cases hagent
  · exact hw u b s hu hagent

theorem Sound.checkIn {w : World K A} (hw : F.Sound w) {t : TreeId} (a : K) {s : AgentState}
    (hs : t < F.trees.length → (F.tree t).Keepable s) : F.Sound (w.checkIn t a s) := by
  intro u b s' hu hagent
  rw [World.agent?_checkIn] at hagent
  split at hagent
  · rename_i hin
    cases hagent
    obtain ⟨rfl, -⟩ := hin
    exact hs hu
  · exact hw u b s' hu hagent

theorem Sound.state (hF : F.Compiled) {w : World K A} (hw : F.Sound w) {t : TreeId}
    (ht : t < F.trees.length) (a : K) : (F.tree t).Keepable (w.state t a) := by
  rw [World.state]
  cases hagent : w.agent? t a with
  | none => exact .new (hF.length_pos ht)
  | some s => exact hw t a s ht hagent

/-! ## The contract -/

/-- The error of a run, if it has one, is one that its tree can raise. -/
def Justifies (F : Forest K A) : (c : Call K) → c.Reply → Prop
  | .run t _, r => t < F.trees.length → ∀ e, r = .error e → F.Raises t e
  | _, _ => True

/-- Operations keep worlds sound, and report justified errors only. -/
def soundness (F : Forest K A) : Contract K A where
  pre _ w := F.Sound w
  post c _ r w' := F.Sound w' ∧ F.Justifies c r

/-- What a tick in a tree can come to. -/
structure Concludes (F : Forest K A) (t : TreeId) (answer : Except RunError Status × AgentState) :
    Prop where
  keepable : (F.tree t).Keepable answer.2
  raises : ∀ e, answer.1 = .error e → F.Raises t e

omit [DecidableEq K] in
theorem Concludes.stopped (hF : F.Compiled) {t : TreeId} (ht : t < F.trees.length)
    {s : AgentState} (hs : ∀ k ∈ s.counters.keys, (F.tree t).program.IsCounter k) {e : RunError}
    (he : F.Raises t e) : F.Concludes t (.error e, s.rewind) :=
  ⟨.rewind (hF.length_pos ht) hs, fun e' he' => by cases he'; exact he⟩

omit [DecidableEq K] in
theorem Concludes.suspended {t : TreeId} {index : Nat}
    {i : Instruction Nat K A} (hget : (F.tree t).program.get? index = some i)
    (hop : (∃ task, i.op = .task task) ∨ ∃ link, i.op = .subTree link)
    {s : AgentState} (hs : ∀ k ∈ s.counters.keys, (F.tree t).program.IsCounter k) :
    F.Concludes t (.ok .running, s.suspendAt index) :=
  ⟨⟨Program.lt_length_of_get? hget, fun _ => ⟨i, hget, hop⟩, nofun, hs⟩, nofun⟩

/-- A hook may ask for anything. -/
theorem asks_soundness (task : RunnableTask K A) :
    task.Asks (Request.Allowed F.soundness F.Sound) := by
  have hrequest : ∀ r : Request K A, r.Allowed F.soundness F.Sound := by
    intro r
    cases r with
    | call c => exact fun w hw => ⟨hw, fun r w' _ hpost => hpost.1⟩
    | _ => trivial
  have hhook : ∀ {α : Type} (hook : Hook K A α),
      hook.Asks (Request.Allowed F.soundness F.Sound) := by
    intro α hook
    induction hook with
    | done a => exact .done a
    | ask r next ih => exact .ask (hrequest r) ih
  exact ⟨fun _ a => hhook _, fun a => hhook _, fun _ a status => hhook _⟩

/-! ## Ticks -/

/-- What a step of a walk in a tree can come to. -/
def Advances (F : Forest K A) (t : TreeId) : Progress → Prop
  | .underway f => (F.tree t).Walked f
  | .ended result s => F.Concludes t (result, s)

section

variable {t : TreeId} {f : Frame} {i : Instruction Nat K A}

omit [DecidableEq K] in
theorem Compiled.advances_ofStatus (hF : F.Compiled) (ht : t < F.trees.length)
    (hget : (F.tree t).program.get? f.cursor = some i)
    (hop : (∃ task, i.op = .task task) ∨ ∃ link, i.op = .subTree link)
    (hcounters : ∀ k ∈ f.state.counters.keys, (F.tree t).program.IsCounter k) (status : Status) :
    F.Advances t (Tick.follow f (.ofStatus i status, f.state)) := by
  have hexit : (F.tree t).Walked ⟨i.exit status, false, f.spent + 1, f.state⟩ :=
    hF.walked ht hget (i.exit_mem_nexts status) hcounters
  cases status with
  | running => exact Concludes.suspended hget hop hcounters
  | success | failure => exact hexit

omit [DecidableEq K] in
/-- From an instruction of a compiled tree, a walk goes on at another, or ends well. -/
theorem Compiled.advances (hF : F.Compiled) (ht : t < F.trees.length)
    (hget : (F.tree t).program.get? f.cursor = some i)
    (hcounters : ∀ k ∈ f.state.counters.keys, (F.tree t).program.IsCounter k)
    {answer : Move × AgentState} (h : i.Leads f.cursor f.state answer) :
    F.Advances t (Tick.follow f answer) := by
  obtain ⟨root, hroot⟩ := hF.compiled ht
  have hop := Node.sound_of_compile hroot hget
  have hset : ∀ {c n}, (F.tree t).program.IsCounter c →
      ∀ k ∈ (f.state.setRounds c n).counters.keys, (F.tree t).program.IsCounter k := by
    intro c n hc k hk
    rcases Table.mem_keys_set.1 hk with rfl | hk
    · exact hc
    · exact hcounters k hk
  cases h with
  | next hnext hsame => exact hF.walked ht hget hnext (by rwa [hsame])
  | start hstart =>
    rw [hstart] at hop
    cases hop with
    | leaf hnone _ => cases hnone
    | start hcounter => exact hF.walked ht hget (.head _) (hset hcounter)
  | count hcount hnext => exact hF.walked ht hget hnext (hset ⟨i, _, _, hget, hcount⟩)
  | suspend htask hsame =>
    exact Concludes.suspended hget (.inl ⟨_, htask⟩) (by rwa [hsame])
  | poisoned => exact .stopped hF ht hcounters .poisoned
  | corrupt hempty =>
    rw [hempty] at hop
    cases hop with
    | leaf _ hdraws => exact absurd rfl hdraws
    | draw hne _ => exact absurd rfl hne

/-- A step of a walk in a compiled tree calls in sound worlds, and goes on or ends well. -/
theorem Compiled.advanceCourse_meets (hF : F.Compiled) (ht : t < F.trees.length) (a : K)
    (hf : (F.tree t).Walked f) {w : World K A} (hw : F.Sound w) :
    ((F.tickOf t a).advanceCourse f w).Meets F.soundness
      fun p w' => F.Advances t p ∧ F.Sound w' := by
  rw [Tick.advanceCourse]
  cases hget : (F.tree t).program.get? f.cursor with
  | none =>
    -- Outside the program a walk can only stand at an end, and so it has a status.
    have hend : Among (F.tree t).program.ends f.cursor :=
      hf.cursor.resolve_left (Nat.not_lt.2 (List.getElem?_eq_none_iff.1 hget))
    have hstatus : ∀ e, (F.tickOf t a).resultAt f.cursor ≠ .error e := by
      obtain ⟨v, hv⟩ := hend
      rw [Tick.resultAt, hv]
      cases v <;> simp [Program.terminalStatus, Program.ends, Program.successIndex,
        Program.failIndex]
    exact ⟨⟨.rewind (hF.length_pos ht) hf.counters, fun e he => absurd he (hstatus e)⟩, hw⟩
  | some i =>
    cases hexhausted : (F.tickOf t a).exhausted f with
    | some limit =>
      have hlimit := (Option.filter_eq_some_iff.1 hexhausted).1
      exact ⟨.stopped hF ht hf.counters (.stepLimit hlimit), Sound.inert.outside hw rfl⟩
    | none =>
      have hlogged : F.Sound (w.log (.dispatched t a f.cursor)) := Sound.inert.outside hw rfl
      by_cases hlink : ∃ link, i.op = .subTree link
      · obtain ⟨link, hop⟩ := hlink
        simp only [Tick.dispatchCourse, hop]
        refine ⟨hlogged, fun result w' _ hresult => ?_⟩
        obtain ⟨hw', hjustified⟩ := hresult
        cases result with
        | ok status =>
          exact ⟨hF.advances_ofStatus ht hget (.inr ⟨link, hop⟩) hf.counters status, hw'⟩
        | error e =>
          have he := hjustified (hF.linked ht hget hop) e rfl
          exact ⟨.stopped hF ht hf.counters (.subTree hget hop he), Sound.inert.outside hw' rfl⟩
      · refine Course.Meets.map ((Tick.dispatchCourse_meets Sound.inert
          (fun _ => asks_soundness _) (fun link hop => hlink ⟨link, hop⟩) hlogged f.resumed
          f.state).imp ?_)
        rintro answer w' ⟨hleads, hw'⟩
        exact ⟨hF.advances ht hget hf.counters hleads, hw'⟩

/-- A tick in a compiled tree, of a state that the tree can keep, calls in sound worlds, and
ends well. -/
theorem Compiled.performCourse_meets (hF : F.Compiled) (ht : t < F.trees.length) (a : K)
    (bound : Nat) {s : AgentState} (hs : (F.tree t).Keepable s) {w : World K A}
    (hw : F.Sound w) :
    ((F.tickOf t a).performCourse bound s w).Meets F.soundness
      fun answer w' => F.Concludes t answer ∧ F.Sound w' := by
  rw [Tick.performCourse, if_neg (Nat.not_le.2 hs.cursor)]
  refine Tick.walkCourse_meets (J := fun f w => (F.tree t).Walked f ∧ F.Sound w)
    (fun f w hf => (hF.advanceCourse_meets ht a hf.1 hf.2).imp fun p w' hp => ?_) bound
    ⟨hs.begin, hw⟩
  cases p <;> exact hp

end

/-! ## Operations -/

theorem Compiled.runCourse_meets (hF : F.Compiled) (bound : Nat) (t : TreeId) (a : K)
    {w : World K A} (hw : F.Sound w) :
    (F.runCourse bound t a w).Meets F.soundness
      fun r w' => F.Sound w' ∧ F.Justifies (.run t a) r := by
  have hpoisoned : F.Justifies (.run t a) (.error .poisoned) := by
    intro _ e he
    cases he
    exact .poisoned
  have hperform : ((F.tickOf t a).performCourse bound (w.state t a)
      ((w.enter t a).checkOut t a)).Meets F.soundness
        fun answer w' => (t < F.trees.length → F.Concludes t answer) ∧ F.Sound w' := by
    have hout := (hw.enter t a).checkOut t a
    by_cases ht : t < F.trees.length
    · exact (hF.performCourse_meets ht a bound (hw.state hF ht a) hout).imp
        fun answer w' h => ⟨fun _ => h.1, h.2⟩
    · have hnone : F.tree t = {} := by simp [tree, ht]
      rw [Tick.performCourse, if_pos (by simp [hnone, Program.length])]
      exact ⟨fun ht' => absurd ht' ht, hout⟩
  rw [runCourse]
  split
  · exact ⟨Sound.inert.outside hw rfl, fun _ e he => by cases he; exact .reentrant⟩
  · split
    · exact ⟨(hw.enter t a).leave t a _, hpoisoned⟩
    · refine hperform.bind fun answer w' hconcluded => ?_
      obtain ⟨hanswer, hw'⟩ := hconcluded
      split
      · exact ⟨hw'.leave t a _, hpoisoned⟩
      · exact ⟨(hw'.checkIn a fun ht => (hanswer ht).keepable).leave t a _,
          fun ht => (hanswer ht).raises⟩

theorem Compiled.abortCourse_meets (hF : F.Compiled) (t : TreeId) (a : K) {w : World K A}
    (hw : F.Sound w) :
    (F.abortCourse t a w).Meets F.soundness fun _ w' => F.Sound w' := by
  have hcancel : ∀ s, (F.cancelCourse t a s (w.checkOut t a)).Meets F.soundness
      fun _ w' => F.Sound w' := by
    intro s
    have hout := hw.checkOut t a
    rw [cancelCourse]
    split
    · exact Tick.endCourse_meets Sound.inert
        (fun hfinish => (asks_soundness _).finish hfinish _ _) hout _
    · exact ⟨hout, fun _ w' _ hpost => hpost.1⟩
    · exact hout
  rw [abortCourse]
  split
  · exact Sound.inert.outside hw rfl
  · cases hagent : w.agent? t a with
    | none => exact hw
    | some s =>
      refine (hcancel s).bind fun board w' hw' => ?_
      split
      · exact hw'
      · refine hw'.checkIn a fun ht => ?_
        exact .rewind (hF.length_pos ht) (hw t a s ht hagent).counters

theorem removeCourse_meets (t : TreeId) (a : K) {w : World K A} (hw : F.Sound w) :
    (F.removeCourse t a w).Meets F.soundness fun _ w' => F.Sound w' := by
  rw [removeCourse]
  split
  · exact hw
  · cases w.agent? t a with
    | none => exact hw
    | some s =>
      have hout := hw.checkOut t a
      simp only
      split
      · exact ⟨hout, fun _ w' _ hpost => hpost.1⟩
      · exact hout

theorem Sound.update (hF : F.Compiled) {w : World K A} (hw : F.Sound w) (t : TreeId) (a : K)
    (edit : Edit) : F.Sound (update t a edit w).2 := by
  rw [Forest.update]
  split
  · exact hw
  · simp only
    split
    · exact (hw.checkIn a fun ht => hw.state hF ht a).modifyTree t fun _ => rfl
    · exact hw.checkIn a fun ht => (hw.state hF ht a).withBoard _

/-- Each operation keeps worlds sound and reports justified errors only, provided that the
operations in its course do. -/
theorem Compiled.fulfils_soundness (hF : F.Compiled) : F.Fulfils F.soundness := by
  intro n c w hw
  cases c with
  | run t a => exact (hF.runCourse_meets n t a hw).imp fun r w' h _ => h
  | abort t a => exact (hF.abortCourse_meets t a hw).imp fun r w' h _ => ⟨h, trivial⟩
  | remove t a => exact (removeCourse_meets t a hw).imp fun r w' h _ => ⟨h, trivial⟩
  | update t a edit => exact fun _ => ⟨hw.update hF t a edit, trivial⟩

/-! ## Wherever an operation begins -/

end Forest

/-- A course issues a call in a world, once those before it were answered. -/
inductive Course.Issues (handler : Handler K A) (d : Call K) (v : World K A) :
    Course K A α → Prop where
  | here {next : d.Reply → World K A → Course K A α} : Issues handler d v (.call d v next)
  | later {c : Call K} {w w' : World K A} {r : c.Reply}
      {next : c.Reply → World K A → Course K A α} :
      handler c w = .done r w' → Issues handler d v (next r w') →
      Issues handler d v (.call c w next)

theorem Course.Meets.issues {handler : Handler K A} {C : Contract K A}
    {final : α → World K A → Prop} {course : Course K A α} (h : course.Meets C final)
    (hC : ∀ {c w r w'}, C.pre c w → handler c w = .done r w' →
      C.granted c w r w' ∧ C.post c w r w')
    {d : Call K} {v : World K A} (hd : course.Issues handler d v) : C.pre d v := by
  induction hd with
  | here => exact h.1
  | later hanswer _ ih =>
    obtain ⟨hgranted, hpost⟩ := hC h.1 hanswer
    exact ih (h.2 _ _ hgranted hpost)

variable [DecidableEq K]

namespace Forest

variable {F : Forest K A}

/-- The worlds in which no operation is under way, where the trees had no agents at first. -/
inductive Resting (F : Forest K A) : World K A → Prop where
  | fresh {w : World K A} : (∀ t a, w.agent? t a = none) → Resting F w
  | outside {w v : World K A} : Resting F w → v.trees = w.trees → Resting F v
  | after {n : Nat} {c : Call K} {w w' : World K A} {r : c.Reply} :
      Resting F w → F.serve n c w = .done r w' → Resting F w'

/-- An operation begins in a world. -/
inductive Begins (F : Forest K A) : Call K → World K A → Prop where
  | resting {c : Call K} {w : World K A} : F.Resting w → Begins F c w
  | issued {n : Nat} {c d : Call K} {w v : World K A} :
      Begins F c w → (F.course n c w).Issues (F.serve n) d v → Begins F d v

theorem Compiled.serve_sound (hF : F.Compiled) {n : Nat} {c : Call K} {w w' : World K A}
    {r : c.Reply} (hw : F.Sound w) (h : F.serve n c w = .done r w') :
    F.Sound w' ∧ F.Justifies c r := by
  obtain ⟨inner, hdoes⟩ := serve_eq_done_iff.1 h
  exact (hdoes.within hF.fulfils_soundness hw (fun _ _ => trivial) (.self _)).2

theorem Resting.sound (hF : F.Compiled) {w : World K A} (h : F.Resting w) : F.Sound w := by
  induction h with
  | fresh hnone =>
    intro t a s ht hagent
    rw [hnone] at hagent
    cases hagent
  | outside _ htrees ih => exact Sound.inert.outside ih htrees
  | after _ hserve ih => exact (hF.serve_sound ih hserve).1

theorem Begins.sound (hF : F.Compiled) {c : Call K} {w : World K A} (h : F.Begins c w) :
    F.Sound w := by
  induction h with
  | resting hw => exact hw.sound hF
  | @issued n c d w v _ hissues ih =>
    exact (hF.fulfils_soundness n c w ih).issues
      (fun hw hserve => ⟨trivial, hF.serve_sound hw hserve⟩) hissues

/-- Wherever an operation on compiled trees begins, and where it ends, each tree keeps what it
can go on with. A run reports only errors that its tree can raise, and so none about a cursor
or a program. -/
theorem sound_of_begins (hF : F.Compiled) {c : Call K} {w : World K A} (h : F.Begins c w) :
    F.Sound w ∧ (∀ {n r w'}, F.serve n c w = .done r w' → F.Sound w') ∧
      ∀ {t a n e w'}, c = .run t a → t < F.trees.length →
        F.serve n (.run t a) w = .done (.error e) w' →
          F.Raises t e ∧ (∀ cursor length, e.innermost ≠ .invalidCursor cursor length) ∧
            ∀ index reason, e.innermost ≠ .corruptProgram index reason := by
  have hw := h.sound hF
  refine ⟨hw, fun hserve => (hF.serve_sound hw hserve).1, ?_⟩
  intro t a n e w' _ ht hserve
  have hraises : F.Raises t e := (hF.serve_sound hw hserve).2 ht e rfl
  exact ⟨hraises, hraises.innermost⟩

/-- A hook runs a tree whose linked tree uses up its limit. -/
theorem sound_of_begins_nested :
    let caller : RunnableTask Unit Unit :=
      ⟨"caller", none, fun a => (Hook.call (.run 1 a)).bind fun _ => .done (.ok .running), none⟩
    let F : Forest Unit Unit :=
      ⟨[{ program := ⟨[⟨.hangingSucceed, 0, 0⟩]⟩, config := { stepLimit := some 1 } },
        { program := ⟨[⟨.subTree ⟨0, 1⟩, 1, 2⟩]⟩ }, { program := ⟨[⟨.task caller, 1, 2⟩]⟩ }]⟩
    F.Compiled ∧ ∃ v v', F.Begins (.run 1 ()) v ∧
      F.serve 4 (.run 1 ()) v = .done (.error (.subTree 0 (.stepLimit 1))) v' ∧
      F.Sound v ∧ F.Sound v' ∧ F.Raises 1 (.subTree 0 (.stepLimit 1)) := by
  intro caller F
  let roots : List (Node Unit Unit) :=
    [.forever (.succeed none), .subTree ⟨0, 1⟩, .action "caller" caller.run]
  have hF : F.Compiled := by
    refine ⟨fun {t} ht => ?_, fun {t index i link} ht hget hop => ?_⟩
    · match t, ht with
      | 0, _ => exact ⟨roots[0], rfl⟩
      | 1, _ => exact ⟨roots[1], rfl⟩
      | 2, _ => exact ⟨roots[2], rfl⟩
    · match t, index, hget with
      | 0, 0, hget => cases hget; cases hop
      | 1, 0, hget => cases hget; cases hop; decide
      | 2, 0, hget => cases hget; cases hop
      | 0, index + 1, hget | 1, index + 1, hget | 2, index + 1, hget => cases hget
  let w : World Unit Unit := { ambient := () }
  have hbegins : F.Begins (.run 1 ()) _ :=
    .issued (.resting (.fresh fun _ _ => rfl) : F.Begins (.run 2 ()) w)
      (show Course.Issues (F.serve 1) (.run 1 ()) _ (F.course 1 (.run 2 ()) w) from .here)
  obtain ⟨hsound, hafter, herrors⟩ := sound_of_begins hF hbegins
  exact ⟨hF, _, _, hbegins, rfl, hsound, hafter (n := 4) rfl,
    (herrors (n := 4) rfl (by decide) rfl).1⟩

end Forest

end TickTree

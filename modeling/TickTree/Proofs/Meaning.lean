import TickTree.Proofs.Tracking

/-!
# Compiling preserves meaning

Walks through the code of a node track the evaluation of the node (`Tick.means`), by
induction on the definition. So the tick of an agent at rest comes to what the
evaluation of the definition comes to: the result, the board, where the agent stands,
and everything that happens to the world but the dispatching of instructions
(`Tick.ComesTo`).

The evaluation has no step limit, and a tick that its limit ends says so in its
result. The counter of a loop has 32 bits and has to exceed the count to leave the
loop, which the largest count does not allow; below it the counter makes the rounds
that the count says. With the largest count the rounds have no end, not even where
every one of them concludes at once (`Tick.comesTo_meaning_largest`).
-/

namespace TickTree

variable {K A : Type} [DecidableEq K]

namespace Tick

variable {tick : Tick K A} {handler : Handler K A} {bound lo hi : Nat} {exit : Verdict → Nat}

/-! ## Nodes -/

theorem Realizes.mono {bound' least' lo' hi' start : Nat} {act : Activity K A}
    (h : tick.Realizes handler bound least lo hi start exit act) (hbound : bound' ≤ bound)
    (hleast : least' ≤ least) (hlo : lo' ≤ lo) (hhi : hi ≤ hi') :
    tick.Realizes handler bound' least' lo' hi' start exit act :=
  fun spent s w v hw => (h spent s w v hw).mono hbound hleast hlo hhi

/-- A node that maps the verdict of its child goes where the mapped verdict goes. -/
theorem Realizes.mapped {least start : Nat} {act : Activity K A} {g : Verdict → Verdict}
    (h : tick.Realizes handler bound least lo hi start (fun u => exit (g u)) act) :
    tick.Realizes handler bound least lo hi start exit (act.andThen fun u => .conclude (g u)) := by
  intro spent s w v hw
  refine (h spent s w v hw).andThen bound ?_ (Nat.le_refl _) (Nat.le_refl _)
    (Nat.le_refl _) (by omega)
  intro u spent' s' w' v' hw' _
  exact Tracks.conclude hw'

section

variable (tick) (handler)

/-- Wherever a program holds the code of the node, walks through it track the evaluation
of the node. -/
def Means (bound : Nat) (node : Node K A) : Prop :=
  ∀ start exit, node.Placed tick.tree.program start exit →
    tick.Realizes handler bound 1 start (start + node.size) start exit
      (node.evaluate tick handler roundsCounted bound start)

end

theorem realizes_chain {carry : Verdict} {children : List (Node K A)}
    (ih : ∀ child ∈ children, tick.Means handler bound child) (hne : children ≠ []) {start : Nat}
    (h : ChainPlaced tick.tree.program carry children start exit) :
    tick.Realizes handler bound 1 start (start + sizes children) start exit
      (evaluateChain tick handler roundsCounted bound carry start children) := by
  induction children generalizing start with
  | nil => exact absurd rfl hne
  | cons child rest ihrest =>
    intro spent s w v hw
    rw [evaluateChain, sizes]
    by_cases hrest : rest = []
    · subst hrest
      refine (ih child (.head _) start exit h.last spent s w v hw).andThen bound ?_
        (Nat.le_refl _) (by omega) (Nat.le_refl _) (by omega)
      intro u spent' s' w' v' hw' _
      by_cases hu : u = carry
      · subst hu
        simpa [evaluateChain] using Tracks.conclude hw'
      · simpa [hu] using Tracks.conclude hw'
    · obtain ⟨hchild, hothers⟩ := h.cons hrest
      refine (ih child (.head _) start _ hchild spent s w v hw).andThen bound ?_
        (Nat.le_refl _) (by omega) (Nat.le_refl _) (by omega)
      intro u spent' s' w' v' hw' _
      by_cases hu : u = carry
      · subst hu
        simp only [toward_self, if_true]
        exact (ihrest (fun c hc => ih c (.tail _ hc)) hrest hothers spent' s' w' v' hw').mono
          (Nat.le_refl _) (by omega) (by omega) (by omega)
      · simp only [toward_of_ne hu, if_neg hu]
        exact Tracks.conclude hw'

theorem map_fst_evaluateBranches {children : List (Node K A)} {start : Nat} {table : List Nat}
    (h : BranchesPlaced tick.tree.program children start exit table) :
    table = (evaluateBranches tick handler roundsCounted bound start children).map Prod.fst := by
  induction children generalizing start table with
  | nil => exact h.nil
  | cons child rest ih =>
    obtain ⟨targets, rfl, -, hrest⟩ := h.cons
    rw [evaluateBranches, List.map_append, List.map_replicate, ← ih hrest]

theorem realizes_branches {children : List (Node K A)}
    (ih : ∀ child ∈ children, tick.Means handler bound child) {start : Nat} {table : List Nat}
    (h : BranchesPlaced tick.tree.program children start exit table) (hlo : lo ≤ start)
    (hhi : start + sizes children ≤ hi) :
    ∀ entry ∈ evaluateBranches tick handler roundsCounted bound start children,
      tick.Realizes handler bound 0 lo hi entry.1 exit entry.2 := by
  induction children generalizing start table with
  | nil => exact fun entry hmem => by cases hmem
  | cons child rest ihrest =>
    obtain ⟨targets, -, hchild, hrest⟩ := h.cons
    rw [sizes] at hhi
    intro entry hmem
    rw [evaluateBranches, List.mem_append] at hmem
    rcases hmem with hmem | hmem
    · obtain rfl := List.eq_of_mem_replicate hmem
      exact (ih child (.head _) start exit hchild).mono (Nat.le_refl _) (by omega) hlo (by omega)
    · exact ihrest (fun c hc => ih c (.tail _ hc)) hrest (by omega) (by omega) entry hmem

/-- The code of a node means what the node means, by induction on the definition. -/
theorem means (hfree : tick.tree.config.effectiveLimit = none)
    (hh : handler.Oblivious Event.unlessDispatch) (bound : Nat) (node : Node K A) :
    tick.Means handler bound node := by
  induction node using Node.induction with
  | mk kind children weight ih =>
    intro start exit h
    cases kind with
    | task t =>
      obtain ⟨run, hrun, hget⟩ := h.task
      simp only [Node.evaluate, hrun]
      exact realizes_task hfree hh hget
    | query q =>
      simp only [Node.evaluate]
      exact realizes_query hfree h.query
    | subTree link =>
      obtain ⟨l, rfl, hget⟩ := h.subTree
      simp only [Node.evaluate]
      exact realizes_link hfree hh hget
    | sequence =>
      simp only [Node.evaluate, Node.size]
      exact realizes_chain ih h.sequence.1 h.sequence.2
    | selector =>
      simp only [Node.evaluate, Node.size]
      exact realizes_chain ih h.selector.1 h.selector.2
    | random =>
      obtain ⟨table, htable, hget, hbranches⟩ := h.random
      simp only [Node.evaluate, Node.size]
      exact realizes_drawn hfree (map_fst_evaluateBranches hbranches) htable hget
        (realizes_branches ih hbranches (by omega) (by omega))
    | whileLoop count =>
      obtain ⟨condition, action, rfl, hhead, hcondition, haction⟩ := h.whileLoop
      simp only [Node.evaluate, Node.size, sizes]
      have hfirst : tick.Realizes handler bound 1 (start + headSize count)
          (start + (headSize count + (condition.size + (action.size + 0))))
          (start + headSize count) _ _ := (ih condition (.head _) _ _ hcondition).mono
        (Nat.le_refl _) (Nat.le_refl _) (Nat.le_refl _) (by omega)
      have hsecond : tick.Realizes handler bound 1 (start + headSize count)
          (start + (headSize count + (condition.size + (action.size + 0))))
          (start + headSize count + condition.size) _ _ :=
        (ih action (.tail _ (.head _)) _ _ haction).mono
        (Nat.le_refl _) (Nat.le_refl _) (by omega) (by omega)
      exact realizes_loop hfree hhead (whileRound_tracks hfirst hsecond (by omega)) (by omega)
    | succeed =>
      rcases h.succeed with ⟨rfl, hget⟩ | ⟨child, rfl, hchild⟩
      · simp only [Node.evaluate]
        exact realizes_hangingSucceed hfree hget
      · simp only [Node.evaluate, Node.size, sizes]
        exact (ih child (.head _) _ _ hchild).mapped (g := fun _ => .success)
    | fail =>
      rcases h.fail with ⟨rfl, hget⟩ | ⟨child, rfl, hchild⟩
      · simp only [Node.evaluate]
        exact realizes_hangingFail hfree hget
      · simp only [Node.evaluate, Node.size, sizes]
        exact (ih child (.head _) _ _ hchild).mapped (g := fun _ => .failure)
    | invert =>
      obtain ⟨child, rfl, hchild⟩ := h.invert
      simp only [Node.evaluate, Node.size, sizes]
      exact (ih child (.head _) _ _ hchild).mapped (g := .flip)
    | repeatLoop count breakOnFail =>
      obtain ⟨child, rfl, hhead, hbody⟩ := h.repeatLoop
      simp only [Node.evaluate, Node.size, sizes]
      have hchild := ih child (.head _) _ _ hbody
      refine realizes_loop hfree hhead (repeatRound_tracks ?_ (by omega)) (by omega)
      exact hchild.mono (Nat.le_refl _) (Nat.le_refl _) (Nat.le_refl _) (by omega)

/-! ## What a meaning depends on

The evaluation reads the registry and the words of its tree and not the settings. -/

section

variable {reading reading' : Option UInt32 → Option Nat}

omit [DecidableEq K] in
theorem link_unlimited (index : Nat) (l : Link) :
    Activity.link tick.unlimited handler index l = Activity.link tick handler index l := by
  funext board w
  change (handler (.run l.tree tick.agent) w).bind _ = (handler (.run l.tree tick.agent) w).bind _
  cases handler (.run l.tree tick.agent) w with
  | cutOff w₁ => rfl
  | done result w₁ =>
    match result with
    | .ok .success | .ok .failure | .ok .running | .error e => rfl

omit [DecidableEq K] in
theorem drawn_unlimited (index : Nat) (entries : List (Nat × Activity K A)) :
    Activity.drawn tick.unlimited index entries = Activity.drawn tick index entries := by
  cases entries with
  | nil => rfl
  | cons first rest =>
    funext board w
    obtain ⟨p, hdraw⟩ : ∃ p,
        Random.draw tick.tree.words (rest.length + 1) (w.tree tick.id).drawn = p := ⟨_, rfl⟩
    have hdraw' : Random.draw tick.unlimited.tree.words (rest.length + 1)
        (w.tree tick.unlimited.id).drawn = p := hdraw
    simp only [Activity.drawn, hdraw, hdraw']
    rfl

theorem evaluateChain_congr {carry : Verdict} {children : List (Node K A)}
    (h : ∀ child ∈ children, ∀ start, child.evaluate tick.unlimited handler reading bound start =
      child.evaluate tick handler reading' bound start) (start : Nat) :
    evaluateChain tick.unlimited handler reading bound carry start children =
      evaluateChain tick handler reading' bound carry start children := by
  induction children generalizing start with
  | nil => rfl
  | cons child rest ih =>
    simp only [evaluateChain, h child (.head _), ih fun c hc => h c (.tail _ hc)]

theorem evaluateBranches_congr {children : List (Node K A)}
    (h : ∀ child ∈ children, ∀ start, child.evaluate tick.unlimited handler reading bound start =
      child.evaluate tick handler reading' bound start) (start : Nat) :
    evaluateBranches tick.unlimited handler reading bound start children =
      evaluateBranches tick handler reading' bound start children := by
  induction children generalizing start with
  | nil => rfl
  | cons child rest ih =>
    simp only [evaluateBranches, h child (.head _), ih fun c hc => h c (.tail _ hc)]

/-- Two readings that agree on the counts of a definition give it one meaning, and the
step limit is no part of it. -/
theorem evaluate_congr {node : Node K A}
    (h : node.Every fun kind => reading kind.count? = reading' kind.count?) (start : Nat) :
    node.evaluate tick.unlimited handler reading bound start =
      node.evaluate tick handler reading' bound start := by
  induction node using Node.induction generalizing start with
  | mk kind children weight ih =>
    have hchild : ∀ child ∈ children, ∀ start,
        child.evaluate tick.unlimited handler reading bound start =
        child.evaluate tick handler reading' bound start :=
      fun child hmem start => ih child hmem (h.child hmem) start
    cases kind with
    | task t =>
      simp only [Node.evaluate]
      cases t.run <;> rfl
    | query q =>
      simp only [Node.evaluate]
      rfl
    | subTree link =>
      cases link <;> simp only [Node.evaluate, link_unlimited]
    | sequence => simp only [Node.evaluate, evaluateChain_congr hchild]
    | selector => simp only [Node.evaluate, evaluateChain_congr hchild]
    | random => simp only [Node.evaluate, evaluateBranches_congr hchild, drawn_unlimited]
    | succeed | fail | invert =>
      rcases children with _ | ⟨child, _ | ⟨_, _⟩⟩
      · simp only [Node.evaluate]
      · simp only [Node.evaluate, hchild child (.head _)]
      · simp only [Node.evaluate]
    | whileLoop count =>
      have hcount : reading count = reading' count := h.kind
      rcases children with _ | ⟨condition, _ | ⟨action, _ | ⟨_, _⟩⟩⟩
      · simp only [Node.evaluate]
      · simp only [Node.evaluate]
      · simp only [Node.evaluate, Activity.loop, hcount, hchild condition (.head _),
          hchild action (.tail _ (.head _))]
      · simp only [Node.evaluate]
    | repeatLoop count breakOnFail =>
      have hcount : reading count = reading' count := h.kind
      rcases children with _ | ⟨child, _ | ⟨_, _⟩⟩
      · simp only [Node.evaluate]
      · simp only [Node.evaluate, Activity.loop, hcount, hchild child (.head _)]
      · simp only [Node.evaluate]

end

/-! ## Repeated leaves

A child that succeeds at once shows the two readings of a count apart. -/

omit [DecidableEq K] in
theorem rounds_conclude (v : Verdict) (last : Activity K A) (n : Nat) :
    Activity.rounds (.repeatRound false (.conclude v)) last n = last := by
  induction n with
  | zero => rfl
  | succ n ih =>
    rw [Activity.rounds, ih]
    rfl

/-- A child that succeeds at once, repeated: whatever the count, it comes to the success of the
last round if there is one, and else to nothing. -/
theorem evaluate_times_succeed (handler : Handler K A) (reading : Option UInt32 → Option Nat)
    (count : UInt32) (start : Nat) :
    (Node.times count (.succeed none)).evaluate tick handler reading bound start =
      if (reading (some count)).isSome then .conclude .success else .endless := by
  simp only [Node.times, Node.succeed, Option.toList_none, Node.evaluate, Activity.loop]
  cases reading (some count) <;> simp only [rounds_conclude] <;> rfl

/-! ## Ticks -/

section

variable (tick) (handler)

/-- The limit of its tree has ended the tick. -/
def LimitHit (r : Except RunError Status) : Prop :=
  ∃ limit, tick.tree.config.effectiveLimit = some limit ∧ r = .error (.stepLimit limit)

/-- The tick of an agent comes to what an activity comes to, given a bound for loops
without an end. If the activity ends, the tick ends the same way, and if the tick ends,
the activity does, unless the tick is ended by the limit of its tree. -/
structure ComesTo (act : Nat → Activity K A) (s : AgentState) (w : World K A) : Prop where
  /-- Where the activity ends, the tick does. -/
  ends : ∀ {bound ending board w'}, act bound s.board w = .done (ending, board) w' →
    ∃ steps r s' v', tick.perform handler steps s w = .done (r, s') v' ∧
      (tick.LimitHit r ∨ r = ending.result ∧ s'.board = board ∧ s'.cursor = ending.cursor ∧
        s'.paused = ending.paused ∧ World.Agrees w' v')
  /-- Where the tick ends, the activity does. -/
  ended : ∀ {steps r s' v'}, tick.perform handler steps s w = .done (r, s') v' →
    tick.LimitHit r ∨ ∃ bound ending w', act bound s.board w = .done (ending, s'.board) w' ∧
      r = ending.result ∧ s'.cursor = ending.cursor ∧ s'.paused = ending.paused ∧
      World.Agrees w' v'

end

omit [DecidableEq K] in
theorem resultAt_ends (tick : Tick K A) (u : Verdict) :
    tick.resultAt (tick.tree.program.ends u) = (Ending.concluded u).result := by
  cases u <;>
    simp [resultAt, Program.ends, Program.terminalStatus, Program.successIndex,
      Program.failIndex, Ending.result]

/-- A walk that stands at an end of the program ends with the next step. -/
theorem advance_ends (tick : Tick K A) (handler : Handler K A) {f : Frame} {u : Verdict}
    (hcursor : f.cursor = tick.tree.program.ends u) (v : World K A) :
    tick.advance handler f v = .done (.ended (Ending.concluded u).result f.state.rewind) v := by
  have hnone : tick.tree.program.get? (tick.tree.program.ends u) = none := by
    cases u <;> simp [Program.get?, Program.ends, Program.successIndex, Program.failIndex,
      Program.length]
  rw [advance, hcursor, hnone, resultAt_ends]

/-- A walk that tracks an activity to the ends of its program ends as the activity does. -/
theorem Tracks.ended {f : Frame} {v w' : World K A} {least : Nat} {ending : Ending}
    {board : Blackboard}
    (h : tick.Tracks handler bound least lo hi tick.tree.program.ends f v
      (.done (ending, board) w')) :
    ∃ k s v', tick.walk handler k f v = .done (.ended ending.result s) v' ∧ World.Agrees w' v' ∧
      s.board = board ∧ s.cursor = ending.cursor ∧ s.paused = ending.paused := by
  cases ending with
  | concluded u =>
    obtain ⟨k, spent, s, v', -, hwalk, hw, hboard, -⟩ := h
    refine ⟨k + 1, s.rewind, v', ?_, hw, hboard, rfl, rfl⟩
    rw [walk_add 1 hwalk]
    exact walk_one_ended (advance_ends tick handler rfl v')
  | suspended index => exact h
  | failed e => exact h

/-- The tick of an agent at rest comes to the meaning of the definition. -/
theorem comesTo_evaluate (hh : handler.Oblivious Event.unlessDispatch) {root : Node K A}
    (hroot : compile root = .ok tick.tree.program) {reading : Option UInt32 → Option Nat}
    (hreading : root.Every fun kind => roundsCounted kind.count? = reading kind.count?)
    {s : AgentState} (hcursor : s.cursor = 0) (hpaused : s.paused = false) (w : World K A) :
    tick.ComesTo handler (fun bound => root.evaluate tick handler reading bound 0) s w := by
  have hplaced := Node.placed_of_compile hroot
  have hbegin : Frame.begin s = ⟨0, false, 0, s⟩ := by
    obtain ⟨cursor, paused, board, counters⟩ := s
    cases hcursor
    cases hpaused
    rfl
  have hin : s.cursor < tick.tree.program.length := hcursor ▸ hplaced.lt_length
  have htracks : ∀ bound, tick.unlimited.Tracks handler bound 1 0 (0 + root.size)
      tick.unlimited.tree.program.ends (.begin s) w
      (root.evaluate tick handler reading bound 0 s.board w) := by
    intro bound
    have hroot : tick.unlimited.Means handler bound root := means rfl hh bound root
    have hmeans := hroot 0 _ hplaced 0 s w w rfl
    rwa [evaluate_congr hreading, ← hbegin] at hmeans
  constructor
  · intro bound ending board w' hact
    have htrack := htracks bound
    rw [hact] at htrack
    obtain ⟨k, s', v', hwalk, hw, hboard, hcur, hpause⟩ := htrack.ended
    rcases walk_unlimited tick handler k (.begin s) w with
      hsame | ⟨limit, s', v', hlimit, hstopped⟩
    · exact ⟨k, _, s', v', perform_of_walk hin (hsame.trans hwalk), .inr
        ⟨rfl, hboard, hcur, hpause, hw⟩⟩
    · exact ⟨k, _, s', v', perform_of_walk hin hstopped, .inl ⟨limit, hlimit, rfl⟩⟩
  · intro steps r s' v' hperform
    have hwalk := walk_of_perform hin hperform
    rcases walk_unlimited tick handler steps (.begin s) w with
      hsame | ⟨limit, s₁, v₁, hlimit, hstopped⟩
    · rw [hsame] at hwalk
      have htrack := htracks steps
      cases hact : root.evaluate tick handler reading steps 0 s.board w with
      | cutOff w' =>
        rw [hact] at htrack
        exact absurd hwalk (htrack steps (Nat.le_refl _) r s' v')
      | done answer w' =>
        obtain ⟨ending, board⟩ := answer
        rw [hact] at htrack
        obtain ⟨k, s₁, v₁, hwalk₁, hw, hboard, hcur, hpause⟩ := htrack.ended
        obtain ⟨rfl, rfl, rfl⟩ := walk_ended_unique hwalk hwalk₁
        exact .inr ⟨steps, ending, w', by rw [hact, hboard], rfl, hcur, hpause, hw⟩
    · rw [hstopped] at hwalk
      cases hwalk
      exact .inl ⟨limit, hlimit, rfl⟩

/-- Compiling preserves meaning: the tick of an agent at rest comes to what the evaluation
of the definition comes to. That holds of every accepted definition with the rounds that
the counter of a loop counts, and these are the rounds that the counts say where no count
is the largest. -/
theorem comesTo_meaning (F : Forest K A) (n : Nat) {root : Node K A}
    (hroot : compile root = .ok tick.tree.program) {s : AgentState} (hcursor : s.cursor = 0)
    (hpaused : s.paused = false) (w : World K A) :
    tick.ComesTo (F.serve n)
        (fun bound => root.evaluate tick (F.serve n) roundsCounted bound 0) s w ∧
      (root.Every (fun kind => kind.count? ≠ some largestCount) →
        tick.ComesTo (F.serve n)
          (fun bound => root.evaluate tick (F.serve n) roundsOf bound 0) s w) := by
  have hh := F.serve_oblivious Event.unlessDispatch n
  refine ⟨comesTo_evaluate hh hroot (root.every_of_forall fun _ => rfl) hcursor hpaused w, ?_⟩
  intro hcounts
  refine comesTo_evaluate hh hroot ?_ hcursor hpaused w
  exact hcounts.imp fun kind hkind => roundsCounted_eq hkind

/-- A task made three times, and turned round. -/
theorem comesTo_meaning_thrice :
    let task : RunnableTask Unit Unit := ⟨"log", none, fun _ => pure (.ok .success), none⟩
    let root : Node Unit Unit := .invert (.times 3 (.action "log" task.run))
    let tick : Tick Unit Unit := ⟨{ program :=
      ⟨[⟨.repeatStart 1, 1, 1⟩, ⟨.repeatCounter 3 2, 4, 3⟩, ⟨.task task, 1, 1⟩]⟩ }, 0, ()⟩
    compile root = .ok tick.tree.program ∧
      root.Every (fun kind => kind.count? ≠ some largestCount) ∧
      tick.ComesTo (Forest.serve ⟨[tick.tree]⟩ 1)
        (fun bound => root.evaluate tick (Forest.serve ⟨[tick.tree]⟩ 1) roundsOf bound 0)
        {} { ambient := () } := by
  intro task root tick
  have hcompile : compile root = .ok tick.tree.program := rfl
  have htask : (Node.action "log" task.run).Every (fun kind => kind.count? ≠ some largestCount) :=
    .mk (by simp [NodeKind.count?]) (fun _ hmem => by cases hmem)
  have htimes : (Node.times 3 (.action "log" task.run)).Every
      (fun kind => kind.count? ≠ some largestCount) :=
    .mk (by simp [NodeKind.count?, largestCount]) (fun _ hmem => List.mem_singleton.1 hmem ▸ htask)
  have hroot : root.Every (fun kind => kind.count? ≠ some largestCount) :=
    .mk (by simp [NodeKind.count?]) (fun _ hmem => List.mem_singleton.1 hmem ▸ htimes)
  exact ⟨hcompile, hroot, (comesTo_meaning ⟨[tick.tree]⟩ 1 hcompile rfl rfl { ambient := () }).2
    hroot⟩

/-- With the largest count the rounds that the count says and those that the counter counts are not
the same. A child that succeeds at once, made so many times, succeeds; the tick has no end. -/
theorem comesTo_meaning_largest :
    let root : Node Unit Unit := .times largestCount (.succeed none)
    let tick : Tick Unit Unit := ⟨{ program := ⟨[⟨.repeatStart 1, 1, 1⟩,
      ⟨.repeatCounter largestCount 2, 3, 4⟩, ⟨.hangingSucceed, 1, 1⟩]⟩ }, 0, ()⟩
    let F : Forest Unit Unit := ⟨[tick.tree]⟩
    let w : World Unit Unit := { ambient := () }
    compile root = .ok tick.tree.program ∧ ∀ n,
      (∀ bound board, root.evaluate tick (F.serve n) roundsOf bound 0 board w =
        .done (.concluded .success, board) w) ∧
      (∀ steps r s v, tick.perform (F.serve n) steps {} w ≠ .done (r, s) v) ∧
      ¬ tick.ComesTo (F.serve n)
        (fun bound => root.evaluate tick (F.serve n) roundsOf bound 0) {} w := by
  intro root tick F w
  have hroot : compile root = .ok tick.tree.program := rfl
  refine ⟨hroot, fun n => ?_⟩
  have hsuccess : ∀ bound board, root.evaluate tick (F.serve n) roundsOf bound 0 board w =
      .done (.concluded .success, board) w := fun bound board => by
    rw [evaluate_times_succeed]
    rfl
  have hcounted : tick.ComesTo (F.serve n)
      (fun bound => root.evaluate tick (F.serve n) roundsCounted bound 0) {} w :=
    comesTo_evaluate (F.serve_oblivious Event.unlessDispatch n) hroot
      (root.every_of_forall fun _ => rfl) rfl rfl w
  have hnever : ∀ steps r s v, tick.perform (F.serve n) steps {} w ≠ .done (r, s) v := by
    intro steps r s v hperform
    rcases hcounted.ended hperform with ⟨limit, hlimit, -⟩ | ⟨bound, ending, w', hact, -⟩
    · cases hlimit
    · rw [evaluate_times_succeed] at hact
      cases hact
  refine ⟨hsuccess, hnever, fun hcomes => ?_⟩
  obtain ⟨steps, r, s, v, hperform, -⟩ := hcomes.ends (hsuccess 0 _)
  exact hnever steps r s v hperform

end Tick

end TickTree

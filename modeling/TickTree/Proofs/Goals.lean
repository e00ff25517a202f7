import TickTree.Proofs.Counting
import TickTree.Proofs.Stages

/-!
# When counted loops are left

Wherever a tick comes to a counter, the counter holds how many rounds were begun since it was set
to zero, so it is never asked to hold more than it can, and the loop goes on until there were as
many as its goal says (`Tick.Counts`). A repetition is therefore left by its counter after exactly
so many evaluations of its child, and otherwise only where a failure of the child breaks it
(`Forest.Compiled.counts_to_goal`).

That needs a goal that can be exceeded, and the largest one cannot: the counter turns over to zero
instead. So such a repetition is never left (`Node.Enclosed.never_left`), and a tree that has it for
its root never concludes (`Forest.never_concludes`).
-/

namespace TickTree

variable {K A : Type}

/-! ## Repetitions in compiled programs -/

/-- Where a counted repetition stands in a program: behind the counter is the code of the child,
and that goes on at the counter, except after a failure that breaks the loop. -/
structure Node.Repeats (p : Program K A) (child : Node K A) (goal : UInt32) (breakOnFail : Bool)
    (weight : UInt32) (start : Nat) (exit : Verdict → Nat) : Prop where
  enclosed : (Node.mk (.repeatLoop (some goal) breakOnFail) [child] weight).Enclosed p start exit
  counter : p.get? (start + 1) =
    some ⟨.repeatCounter goal (start + 2), exit .success, exit .failure⟩
  child : child.Placed p (start + 2)
    (if breakOnFail then toward .success (start + 1) exit else fun _ => start + 1)

section

variable {root child : Node K A} {p : Program K A} {path : Path} {goal weight : UInt32}
  {breakOnFail : Bool} {start j k : Nat} {exit : Verdict → Nat} {c d : Rounds}

theorem bound?_some (hpos : 0 < goal) : bound? (some goal) = some goal := by
  simp [bound?, Option.filter, hpos]

theorem Node.repeats_of_compile (h : compile root = .ok p)
    (hat : root.at? path = some (.mk (.repeatLoop (some goal) breakOnFail) [child] weight))
    (hpos : 0 < goal) :
    ∃ exit, Node.Repeats p child goal breakOnFail weight (root.offset path) exit := by
  obtain ⟨exit, hnode⟩ := (Node.enclosed_of_compile h).below hat
  rw [Nat.zero_add] at hnode
  have hcount := bound?_some hpos
  obtain ⟨_, heq, hhead, hchild⟩ := hnode.placed.repeatLoop
  cases heq
  simp only [headSize, loopAgain, hcount] at hchild
  exact ⟨exit, hnode, (hhead goal hcount).2, hchild⟩

theorem not_exceeds_largest (n : UInt32) : ¬ n > largestCount := by
  have hmost := n.toNat_lt
  have hlargest : largestCount.toNat = 2 ^ 32 - 1 := rfl
  rw [gt_iff_lt, UInt32.lt_iff_toNat_lt]
  omega

/-- With the largest goal nothing leads out of a repetition, unless a failure of the child breaks
it. -/
theorem Node.Enclosed.never_left
    (h : (Node.mk (.repeatLoop (some largestCount) false) [child] weight).Enclosed p start exit)
    (hstep : p.Step j c k d) (hlo : start ≤ j)
    (hhi : j < start + (Node.mk (.repeatLoop (some largestCount) false) [child] weight).size) :
    start ≤ k ∧
      k < start + (Node.mk (.repeatLoop (some largestCount) false) [child] weight).size := by
  by_contra hout
  rcases h.leaves_repeat (bound?_some (by decide)) hstep hlo hhi hout with
    ⟨-, -, hexceeds⟩ | ⟨hbreak, -⟩
  · exact not_exceeds_largest _ hexceeds
  · cases hbreak

end

variable [DecidableEq K]

/-! ## Goals that can be exceeded -/

/-- At a counter a walk finds how many rounds were begun. They are no more than the goal says, and
one more can be counted. With as many as the goal says the loop is left, and with fewer its body is
begun again. -/
structure Tick.Counts (tick : Tick K A) (handler : Handler K A) (f : Frame) (v : World K A)
    (goal : UInt32) (body yes rounds : Nat) : Prop where
  holds : (f.state.rounds f.cursor).toNat = rounds
  within : rounds ≤ goal.toNat
  fits : (f.state.rounds f.cursor).toNat + 1 ≤ largestCount.toNat
  goesOn : tick.exhausted f = none →
    tick.advance handler f v =
      .done (.underway ⟨if rounds = goal.toNat then yes else body, false, f.spent + 1,
        f.state.setRounds f.cursor (f.state.rounds f.cursor + 1)⟩)
        (v.log (.dispatched tick.id tick.agent f.cursor))

theorem Tick.advance_counter {tick : Tick K A} {f : Frame} {goal : UInt32} {body yes no : Nat}
    (handler : Handler K A)
    (hget : tick.tree.program.get? f.cursor = some ⟨.repeatCounter goal body, yes, no⟩)
    (hfree : tick.exhausted f = none) (w : World K A) :
    tick.advance handler f w =
      .done (.underway ⟨if f.state.rounds f.cursor + 1 > goal then yes else body, false,
        f.spent + 1, f.state.setRounds f.cursor (f.state.rounds f.cursor + 1)⟩)
        (w.log (.dispatched tick.id tick.agent f.cursor)) := by
  simp only [advance, hget, hfree, dispatch]
  rfl

/-- A step of a walk that goes on is one of its trail. -/
theorem Tick.advance_step {tick : Tick K A} {handler : Handler K A} {f f' : Frame}
    {w w' : World K A} (h : tick.advance handler f w = .done (.underway f') w') :
    tick.tree.program.Step f.cursor f.state.rounds f'.cursor f'.state.rounds := by
  cases Tick.advance_cases h with
  | @dispatched i answer _ _ hget hfree hdispatch hfollow =>
    obtain ⟨move, s⟩ := answer
    cases move with
    | goto next =>
      cases hfollow
      exact dispatch_step hget hdispatch
    | suspend => cases hfollow
    | stop e => cases hfollow

namespace Forest

variable {F : Forest K A} {t : TreeId} {a : K} {w v : World K A}

/-- Wherever a walk comes to a counter, it finds how many rounds were begun. -/
theorem Walking.holds {f : Frame} {root : Node K A} {goal : UInt32} {body yes no : Nat}
    (h : F.Walking t a w v f.cursor f.state.rounds)
    (hroot : compile root = .ok (F.tree t).program)
    (hget : (F.tree t).program.get? f.cursor = some ⟨.repeatCounter goal body, yes, no⟩) :
    f.state.rounds f.cursor = .ofNat (laps f.cursor (v.itinerary t a)) ∧
      (goal < largestCount → laps f.cursor (v.itinerary t a) ≤ goal.toNat) :=
  World.reduceOption_track t a v ▸ h.trek.holds hroot hget rfl

/-- At a counter its goal is exceeded once there were as many rounds as it says. -/
theorem Walking.exceeds_iff {f : Frame} {root : Node K A} {goal : UInt32} {body yes no : Nat}
    (h : F.Walking t a w v f.cursor f.state.rounds)
    (hroot : compile root = .ok (F.tree t).program)
    (hget : (F.tree t).program.get? f.cursor = some ⟨.repeatCounter goal body, yes, no⟩)
    (hgoal : goal < largestCount) :
    f.state.rounds f.cursor + 1 > goal ↔ laps f.cursor (v.itinerary t a) = goal.toNat := by
  obtain ⟨hholds, hmost⟩ := h.holds hroot hget
  rw [hholds]
  exact TickTree.exceeds_iff (hmost hgoal) hgoal

theorem Walking.counts {f : Frame} {root : Node K A} {goal : UInt32} {body yes no : Nat}
    (handler : Handler K A) (h : F.Walking t a w v f.cursor f.state.rounds)
    (hroot : compile root = .ok (F.tree t).program)
    (hget : (F.tree t).program.get? f.cursor = some ⟨.repeatCounter goal body, yes, no⟩)
    (hgoal : goal < largestCount) :
    (F.tickOf t a).Counts handler f v goal body yes (laps f.cursor (v.itinerary t a)) := by
  obtain ⟨hholds, hmost⟩ := h.holds hroot hget
  have hle := hmost hgoal
  have hlt : goal.toNat < largestCount.toNat := UInt32.lt_iff_toNat_lt.1 hgoal
  have hrounds : (f.state.rounds f.cursor).toNat = laps f.cursor (v.itinerary t a) := by
    rw [hholds]
    exact UInt32.toNat_ofNat_of_lt' (Nat.lt_of_le_of_lt hle goal.toNat_lt)
  refine ⟨hrounds, hle, by omega, fun hfree => ?_⟩
  simp only [Tick.advance_counter handler hget hfree v, h.exceeds_iff hroot hget hgoal]

/-- What a walk has in its hands when it leaves a repetition. -/
theorem Walking.leaves {f : Frame} {child : Node K A} {goal weight : UInt32} {breakOnFail : Bool}
    {start next : Nat} {exit : Verdict → Nat} {d : Rounds}
    (h : F.Walking t a w v f.cursor f.state.rounds) {root : Node K A}
    (hroot : compile root = .ok (F.tree t).program)
    (hloop : Node.Repeats (F.tree t).program child goal breakOnFail weight start exit)
    (hpos : 0 < goal) (hgoal : goal < largestCount)
    (hstep : (F.tree t).program.Step f.cursor f.state.rounds next d) (hlo : start ≤ f.cursor)
    (hhi : f.cursor < start + (Node.mk (.repeatLoop (some goal) breakOnFail) [child] weight).size)
    (hout : ¬ (start ≤ next ∧
      next < start + (Node.mk (.repeatLoop (some goal) breakOnFail) [child] weight).size)) :
    (f.cursor = start + 1 ∧ next = exit .success ∧
        laps (start + 1) (v.itinerary t a) = goal.toNat) ∨
      (breakOnFail = true ∧ start + 2 ≤ f.cursor ∧ next = exit .failure) := by
  rcases hloop.enclosed.leaves_repeat (bound?_some hpos) hstep hlo hhi hout with
    ⟨hcursor, hnext, hexceeds⟩ | hbroken
  · have hget := hloop.counter
    rw [← hcursor] at hget
    exact .inl ⟨hcursor, hnext, hcursor ▸ (h.exceeds_iff hroot hget hgoal).1 hexceeds⟩
  · exact .inr hbroken

theorem Stage.walking (hw : F.Accounted w) {m : Nat} {f : Frame} (h : F.Stage t a w m f v) :
    F.Walking t a w v f.cursor f.state.rounds := by
  obtain ⟨bound, hwalk⟩ := h.walk
  exact walk_walking (f := .begin (w.state t a)) (walking_begin hw t a) hwalk

/-- Whatever operations there were, wherever a tick comes to: a counter holds how many rounds of
its loop were begun, one more can be counted, and the loop is left after as many as its goal says.
So a repetition in the definition of the tree is left for where its success leads after as many
evaluations of its child, and otherwise only because the child has failed and that breaks it. -/
theorem Compiled.counts_to_goal (hF : F.Compiled) (h : F.Occurs (.run t a) w)
    (ht : t < F.trees.length) {m : Nat} {f : Frame} (hstage : F.Stage t a w m f v) :
    (∀ goal body yes no,
      (F.tree t).program.get? f.cursor = some ⟨.repeatCounter goal body, yes, no⟩ →
      goal < largestCount → ∀ handler,
        (F.tickOf t a).Counts handler f v goal body yes (laps f.cursor (v.itinerary t a))) ∧
    ∀ root path node child goal breakOnFail weight,
      compile root = .ok (F.tree t).program → root.at? path = some node →
      node = .mk (.repeatLoop (some goal) breakOnFail) [child] weight →
      0 < goal → goal < largestCount →
      ∃ exit,
        Node.Repeats (F.tree t).program child goal breakOnFail weight (root.offset path) exit ∧
        ∀ handler f' v', (F.tickOf t a).advance handler f v = .done (.underway f') v' →
          root.offset path ≤ f.cursor → f.cursor < root.offset path + node.size →
          ¬ (root.offset path ≤ f'.cursor ∧ f'.cursor < root.offset path + node.size) →
          (f.cursor = root.offset path + 1 ∧ f'.cursor = exit .success ∧
            laps (root.offset path + 1) (v.itinerary t a) = goal.toNat) ∨
          (breakOnFail = true ∧ root.offset path + 2 ≤ f.cursor ∧ f'.cursor = exit .failure) := by
  obtain ⟨_, hcompiled⟩ := hF.compiled ht
  have hwalking := hstage.walking h.accounted
  refine ⟨fun goal body yes no hget hgoal handler =>
    hwalking.counts handler hcompiled hget hgoal, ?_⟩
  rintro root path _ child goal breakOnFail weight hroot hat rfl hpos hgoal
  obtain ⟨exit, hloop⟩ := Node.repeats_of_compile hroot hat hpos
  exact ⟨exit, hloop, fun _ f' v' hadvance hlo hhi hout =>
    hwalking.leaves hroot hloop hpos hgoal (Tick.advance_step hadvance) hlo hhi hout⟩

/-- A task that has waited in the first of two rounds, and is ticked again. -/
theorem counts_to_goal_resumed :
    let wait (_ : Unit) : Hook Unit Nat TaskResult :=
      .ask .ambient fun n => .done (.ok (if n = 0 then .success else .running))
    let task : Node Unit Nat := .action "wait" wait
    let root : Node Unit Nat := .times 2 task
    let F : Forest Unit Nat := ⟨[{ program := ⟨[⟨.repeatStart 1, 1, 1⟩,
      ⟨.repeatCounter 2 2, 3, 4⟩, ⟨.task ⟨"wait", none, wait, none⟩, 1, 1⟩]⟩ }]⟩
    let waiting : AgentState := { cursor := 2, paused := true, counters := .ofList [(1, 1)] }
    let w : World Unit Nat :=
      { trees := .ofList [(0, { agents := .ofList [((), waiting)] })], ambient := 0,
        journal := [.left 0 () (.ok .running), .ran 0 () 2 "wait" (.ok .running),
          .dispatched 0 () 2, .dispatched 0 () 1, .dispatched 0 () 0, .entered 0 ()] }
    compile root = .ok (F.tree 0).program ∧ F.Compiled ∧ F.Occurs (.run 0 ()) w ∧
    ∃ f v f' v' exit,
      F.Stage 0 () w 3 f v ∧ v.itinerary 0 () = [2, 1, 2, 2, 1, 0] ∧
      (F.tickOf 0 ()).Counts (F.serve 8) f v 2 2 3 2 ∧
      (F.tickOf 0 ()).advance (F.serve 8) f v = .done (.underway f') v' ∧
      Node.Repeats (F.tree 0).program task 2 false 1 0 exit ∧ f'.cursor = exit .success := by
  intro wait task root F waiting w
  have hroot : compile root = .ok (F.tree 0).program := rfl
  have hF : F.Compiled := by
    refine ⟨fun {t} ht => ?_, fun {t index i link} _ hget hop => ?_⟩
    · obtain rfl : t = 0 := Nat.lt_one_iff.1 ht
      exact ⟨root, hroot⟩
    · match t, index, hget with
      | 0, 0, hget | 0, 1, hget | 0, 2, hget => cases hget; cases hop
  have hwaits : F.serve 8 (.run 0 ()) { ambient := 1 } = .done (.ok .running) _ := rfl
  have hoccurs : F.Occurs (.run 0 ()) w :=
    .between (.outside (.after (.fresh fun _ _ => rfl) hwaits) rfl rfl)
  have hnext : ∀ {m f f' v v'}, F.Stage 0 () w m f v →
      (F.tickOf 0 ()).advance (F.serve 8) f v = .done (.underway f') v' →
        F.Stage 0 () w (m + 1) f' v' := .next
  have hresumed := hnext .begin rfl
  have hcounted := hnext hresumed rfl
  have hstage := hnext hcounted rfl
  obtain ⟨hcounts, hloops⟩ := hF.counts_to_goal hoccurs (by decide) hstage
  obtain ⟨exit, hrepeats, hleaves⟩ :=
    hloops root [] root task 2 false 1 hroot rfl rfl (by decide) (by decide)
  have hcount := hcounts 2 2 3 4 rfl (by decide) (F.serve 8)
  have hadvance := hcount.goesOn rfl
  rcases hleaves _ _ _ hadvance (by decide) (by decide) (by decide) with
    ⟨-, hsuccess, -⟩ | ⟨hbreak, -⟩
  · exact ⟨hroot, hF, hoccurs, _, _, _, _, exit, hstage, rfl, hcount, hadvance, hrepeats, hsuccess⟩
  · cases hbreak

end Forest

/-! ## The largest goal -/

namespace Tick

variable {tick : Tick K A} {handler : Handler K A} {w w' : World K A}

/-- A tick of a tree that repeats its child for the largest count does not conclude. -/
theorem never_concludes {child : Node K A}
    (hroot : compile (.times largestCount child) = .ok tick.tree.program) {n : Nat} {f : Frame}
    {status : Status} {s : AgentState} (hcursor : f.cursor < tick.tree.program.length)
    (h : tick.walk handler n f w = .done (.ended (.ok status) s) w') : status = .running := by
  have hlength := Node.length_of_compile hroot
  induction n generalizing f w with
  | zero => cases h
  | succ n ih =>
    rw [walk_succ, Outcome.bind_eq_done_iff] at h
    obtain ⟨p, v, hadvance, hrest⟩ := h
    cases p with
    | underway f' =>
      refine ih ?_ hrest
      have hstays := (Node.enclosed_of_compile hroot).never_left (advance_step hadvance)
        (Nat.zero_le _) (by rwa [Nat.zero_add, ← Node.times, ← hlength])
      rw [Nat.zero_add, ← Node.times, ← hlength] at hstays
      exact hstays.2
    | ended r s' =>
      cases hrest
      generalize hp : Progress.ended (.ok status) s = p at hadvance
      cases advance_cases hadvance with
      | atEnd hnone => exact absurd hcursor (Nat.not_lt.2 (List.getElem?_eq_none_iff.1 hnone))
      | limited => cases hp
      | @dispatched i answer _ _ _ _ _ hfollow =>
        obtain ⟨move, s'⟩ := answer
        rw [← hp] at hfollow
        cases move with
        | goto next => cases hfollow
        | suspend =>
          cases hfollow
          rfl
        | stop e => cases hfollow

end Tick

namespace Forest

variable {F : Forest K A} {t : TreeId} {a : K} {w w' : World K A}

/-- A tree that repeats its child for the largest count never concludes. -/
theorem never_concludes {child : Node K A}
    (hroot : compile (.times largestCount child) = .ok (F.tree t).program) {n : Nat}
    {status : Status} (h : F.serve n (.run t a) w = .done (.ok status) w') : status = .running := by
  cases n with
  | zero => cases h
  | succ n =>
    have hran : F.run (F.serve n) n t a w = .done (.ok status) w' := h
    cases run_cases hran with
    | ticked _ _ hperform _ =>
      by_cases hcursor : (w.state t a).cursor < (F.tickOf t a).tree.program.length
      · have hroot' : compile (.times largestCount child) = .ok (F.tickOf t a).tree.program := hroot
        exact Tick.never_concludes hroot' (f := .begin (w.state t a)) hcursor
          (Tick.walk_of_perform hcursor hperform)
      · rw [Tick.perform, if_pos (Nat.not_lt.1 hcursor)] at hperform
        cases hperform

/-- A child that succeeds at once is evaluated again and again where the goal is the largest: the
counter counts every time, and turns over. -/
theorem Stage.turns_over {c m spent yes no no' : Nat} {s : AgentState}
    (hfree : (F.tree t).config.effectiveLimit = none)
    (hcounter : (F.tree t).program.get? c = some ⟨.repeatCounter largestCount (c + 1), yes, no⟩)
    (hchild : (F.tree t).program.get? (c + 1) = some ⟨.hangingSucceed, c, no'⟩)
    (h : F.Stage t a w m ⟨c, false, spent, s⟩ v) (n : Nat) :
    ∃ s' v', F.Stage t a w (m + 2 * n) ⟨c, false, spent + 2 * n, s'⟩ v' ∧
      s'.rounds c = s.rounds c + .ofNat n ∧
      laps c (v'.itinerary t a) = laps c (v.itinerary t a) + n := by
  have hunspent : ∀ f, (F.tickOf t a).exhausted f = none := fun f => by
    change (F.tree t).config.effectiveLimit.filter _ = none
    rw [hfree, Option.filter_none]
  induction n with
  | zero => exact ⟨s, v, h, (UInt32.add_zero _).symm, rfl⟩
  | succ n ih =>
    obtain ⟨s', v', hstage, hholds, hlaps⟩ := ih
    have hcount := Tick.advance_counter (f := ⟨c, false, spent + 2 * n, s'⟩) (F.serve 0) hcounter
      (hunspent _) v'
    rw [if_neg (not_exceeds_largest _)] at hcount
    have hsucceed := Tick.advance_of_get? (F.tickOf t a) (F.serve 0)
      ⟨c + 1, false, spent + 2 * n + 1, s'.setRounds c (s'.rounds c + 1)⟩ hfree hchild
      (v'.log (.dispatched t a c))
    refine ⟨_, _, (hstage.next hcount).next hsucceed, ?_, ?_⟩
    · change (s'.setRounds c (s'.rounds c + 1)).rounds c = _
      rw [AgentState.rounds_update, Function.update_self, hholds, UInt32.ofNat_add,
        UInt32.add_assoc]
      rfl
    · change laps c (((v'.log (.dispatched t a c)).log (.dispatched t a (c + 1))).itinerary t a) = _
      rw [World.itinerary_dispatched, World.itinerary_dispatched,
        laps_other _ (by omega) (by omega), laps_count, hlaps, Nat.add_assoc]

/-- A child that succeeds at once, repeated for the largest count. It is evaluated as often as the
count says, and the counter holds that; then it turns over to zero, and the child is evaluated
again. The tick has no end. -/
theorem counter_turns_over :
    let root : Node Unit Unit := .times largestCount (.succeed none)
    let F : Forest Unit Unit := ⟨[{ program := ⟨[⟨.repeatStart 1, 1, 1⟩,
      ⟨.repeatCounter largestCount 2, 3, 4⟩, ⟨.hangingSucceed, 1, 1⟩]⟩ }]⟩
    let w : World Unit Unit := { ambient := () }
    compile root = .ok (F.tree 0).program ∧ F.Occurs (.run 0 ()) w ∧
    (∃ f v f' v', F.Stage 0 () w (1 + 2 * largestCount.toNat) f v ∧
      f.cursor = 1 ∧ f.state.rounds 1 = largestCount ∧
      laps 1 (v.itinerary 0 ()) = largestCount.toNat ∧
      (F.tickOf 0 ()).advance (F.serve 0) f v = .done (.underway f') v' ∧
      f'.cursor = 2 ∧ f'.state.rounds 1 = 0) ∧
    ∀ r w', ¬ F.Answers (.run 0 ()) w r w' := by
  intro root F w
  have hroot : compile root = .ok (F.tree 0).program := rfl
  have hstart : (F.tickOf 0 ()).advance (F.serve 0) (.begin (w.state 0 ()))
      ((w.enter 0 ()).checkOut 0 ()) = .done (.underway _) _ := rfl
  have hrounds : ∀ n, ∃ s v, F.Stage 0 () w (1 + 2 * n) ⟨1, false, 1 + 2 * n, s⟩ v ∧
      s.rounds 1 = .ofNat n ∧ laps 1 (v.itinerary 0 ()) = n := fun n => by
    obtain ⟨s, v, hstage, hholds, hlaps⟩ := (Stage.begin.next hstart).turns_over rfl rfl rfl n
    exact ⟨s, v, hstage, hholds.trans (UInt32.zero_add _), hlaps.trans (Nat.zero_add n)⟩
  refine ⟨hroot, .between (.fresh fun _ _ => rfl), ?_, fun r w' => ?_⟩
  · obtain ⟨s, v, hstage, hholds, hlaps⟩ := hrounds largestCount.toNat
    rw [UInt32.ofNat_toNat] at hholds
    have hcount := Tick.advance_counter (f := ⟨1, false, 1 + 2 * largestCount.toNat, s⟩) (F.serve 0)
      (show (F.tickOf 0 ()).tree.program.get? 1 =
        some ⟨.repeatCounter largestCount 2, 3, 4⟩ from rfl) rfl v
    rw [if_neg (not_exceeds_largest _)] at hcount
    refine ⟨_, v, _, _, hstage, rfl, hholds, hlaps, hcount, rfl, ?_⟩
    change (s.setRounds 1 (s.rounds 1 + 1)).rounds 1 = 0
    rw [AgentState.rounds_update, Function.update_self, hholds]
    rfl
  · refine not_answers_of_stages ?_ rfl rfl (by decide) (fun m => ?_) r
    · intro t j task yes no hget
      match t, j, hget with
      | 0, 0, hget | 0, 1, hget | 0, 2, hget => cases hget
    · obtain ⟨s, v, hstage, -⟩ := hrounds m
      exact ⟨_, _, v, by omega, hstage⟩

end Forest

end TickTree

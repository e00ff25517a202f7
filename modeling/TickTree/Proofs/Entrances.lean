import TickTree.Proofs.Goals
import TickTree.Proofs.Lasting

/-!
# How often bodies are entered

Wherever control is in the body of a counted loop, and wherever in it an agent is suspended, the
counter of the loop tells how often control has gone from it into the body since the loop was begun.
That is never more than its goal, so where the counter is dispatched it has not told more either
(`Program.Tells`).

Once control has been outside of a loop, the loop is begun before its counter is dispatched again.
The agent passes the place where a stage of its tick stands before any later stage, or its tick is
over there and the next begins at the first instruction (`Forest.Later.passes`). Both are outside of
the loop, and since the loop was begun the agent was at places in it only
(`Program.Lapping.inside`).

All this holds of each agent and each counted loop in the definition of a tree, unless the goal is
the largest (`Forest.tellsRounds_of_compile`).
-/

namespace TickTree

variable {K A : Type}

/-- With control at an index of a loop, its counter tells how often the body was entered since the
loop was begun. -/
structure Program.Tells (start hi : Nat) (goal : UInt32) (dispatched : List Nat) (j : Nat)
    (c : Rounds) : Prop where
  /-- The loop was begun. -/
  begun : start < j → j < hi → start ∈ dispatched
  /-- In the body. -/
  body : start + 1 < j → j < hi →
    (c (start + 1)).toNat = entrances (start + 1) (j :: dispatched) ∧
      1 ≤ (c (start + 1)).toNat ∧ (c (start + 1)).toNat ≤ goal.toNat
  /-- At the counter itself, before a round is counted. -/
  counter : j = start + 1 → (c (start + 1)).toNat ≤ goal.toNat

section

variable {p : Program K A} {start hi j : Nat} {goal : UInt32} {exit : Verdict → Nat} {c : Rounds}
  {track : List (Option Nat)}

theorem Program.Lapping.tells (h : Lapping start hi goal track j c) (hgoal : goal < largestCount) :
    (c (start + 1)).toNat = entrances (start + 1) (j :: track.reduceOption) ∧
      (c (start + 1)).toNat ≤ goal.toNat := by
  have hle := h.within hgoal
  have hrounds : (c (start + 1)).toNat = laps (start + 1) track.reduceOption := by
    rw [h.holds]
    exact UInt32.toNat_ofNat_of_lt' (Nat.lt_of_le_of_lt hle goal.toNat_lt)
  rw [hrounds, h.entered]
  exact ⟨rfl, hle⟩

theorem Program.Loop.tells (hloop : p.Loop start hi goal exit) (h : p.Trek track j c)
    (hgoal : goal < largestCount) : Tells start hi goal track.reduceOption j c := by
  have hbody := hloop.body
  refine ⟨fun hlo hhi => ?_, fun hlo hhi => ?_, fun hj => ?_⟩
  · obtain ⟨since, earlier, rfl, -⟩ := (hloop.lapping h hlo hhi).inside
    exact List.mem_filterMap.2 ⟨some start, List.mem_append_right _ (.head _), rfl⟩
  · have hlapping := hloop.lapping h (by omega) hhi
    obtain ⟨hrounds, hle⟩ := hlapping.tells hgoal
    refine ⟨hrounds, ?_, hle⟩
    rw [hrounds, hlapping.entered]
    exact hlapping.begun hlo
  · exact ((hloop.lapping h (by omega) (by omega)).tells hgoal).2

end

/-! ## Passing a place -/

/-- What a front of a list has and another front has not stands behind all of that one. -/
theorem mem_of_append_eq {α : Type} {new old since earlier : List α} {x y : α}
    (h : new ++ old = since ++ x :: earlier) (hmem : y ∈ new) (hnot : y ∉ since) : x ∈ new := by
  rcases List.append_eq_append_iff.1 h with ⟨rest, hsince, -⟩ | ⟨rest, hnew, hrest⟩
  · exact absurd (hsince ▸ List.mem_append_left rest hmem) hnot
  · cases rest with
    | nil =>
      rw [List.append_nil] at hnew
      exact absurd (hnew ▸ hmem) hnot
    | cons first rest =>
      obtain ⟨rfl, -⟩ := List.cons.inj hrest
      rw [hnew]
      exact List.mem_append_right _ (.head _)

variable [DecidableEq K]

/-- Between two worlds the instruction at an index was dispatched for an agent, or a tick of the
agent was over for good. -/
def World.Passes (t : TreeId) (a : K) (index : Nat) (w v : World K A) : Prop :=
  ∃ new, v.journal = new ++ w.journal ∧
    ∃ e ∈ new, Event.mark? t a e = some (some index) ∨ Event.mark? t a e = some none

theorem Event.eq_dispatched {t : TreeId} {a : K} {e : Event K} {index : Nat}
    (h : e.mark? t a = some (some index)) : e = .dispatched t a index := by
  cases e with
  | dispatched u b j =>
    rw [Event.mark?] at h
    split at h
    · rename_i hsame
      obtain ⟨rfl, rfl⟩ := hsame
      cases h
      rfl
    · cases h
  | left u b r =>
    rw [Event.mark?] at h
    split at h <;> cases h
  | _ => cases h

namespace World

variable {t : TreeId} {a : K} {index : Nat} {w v u : World K A}

theorem Passes.shifts (h : w.Passes t a index v) (h' : World.Shifts v u) :
    w.Passes t a index u := by
  obtain ⟨new, hjournal, e, he, hmark⟩ := h
  obtain ⟨newer, hsuffix⟩ := h'.journal
  refine ⟨newer ++ new, ?_, e, List.mem_append_right newer he, hmark⟩
  rw [← hsuffix, hjournal, List.append_assoc]

theorem passes_dispatched (h : World.Shifts (w.log (.dispatched t a index)) v) :
    w.Passes t a index v :=
  Passes.shifts ⟨[.dispatched t a index], rfl, _, .head _, .inl (by simp [Event.mark?])⟩ h

theorem passes_leave {r : Except RunError Status} (h : World.Shifts w v)
    (hr : rewinds r = true) : w.Passes t a index (v.leave t a r) := by
  obtain ⟨new, hsuffix⟩ := h.journal
  refine ⟨.left t a r :: new, ?_, _, .head _, .inr (by simp [Event.mark?, hr])⟩
  rw [List.cons_append, hsuffix]
  rfl

end World

/-! ## Stages and what comes after them -/

namespace Forest

variable {F : Forest K A} {t : TreeId} {a : K} {m n k bound : Nat} {f g : Frame}
  {w v w' u x y : World K A}

omit [DecidableEq K] in
/-- At an end of its program, or nowhere in it, a tick is over for good. -/
theorem rewinds_resultAt (tick : Tick K A) (index : Nat) :
    rewinds (tick.resultAt index) = true := by
  have hne := tick.resultAt_ne_running index
  rw [Tick.resultAt] at hne ⊢
  cases hstatus : tick.tree.program.terminalStatus index with
  | none => rfl
  | some status =>
    rw [hstatus] at hne
    exact Status.isDone_iff_ne_running.2 fun heq => hne (congrArg Except.ok heq)

/-- A step passes the place it stands at, or it ends the tick and the agent begins anew. -/
theorem advance_passes {p : Progress} (h : (F.tickOf t a).advance (F.serve n) f w = .done p v) :
    w.Passes t a f.cursor v ∨ World.Shifts w v ∧ ∃ r s, p = .ended r s ∧ rewinds r = true := by
  have hshifts := advance_shifts h
  cases Tick.advance_cases h with
  | atEnd => exact .inr ⟨hshifts, _, _, rfl, rewinds_resultAt _ _⟩
  | limited => exact .inr ⟨hshifts, _, _, rfl, rfl⟩
  | @dispatched i answer _ _ hget _ hdispatch _ =>
    rw [Tick.dispatch_eq_under] at hdispatch
    exact .inl (World.passes_dispatched (Course.Keeps.under (fun _ _ _ => .trans) serve_shifts
      (Tick.dispatchCourse_spans _ World.shifts_spans
        (fun {task} _ => task.asks_of_forall fun _ => trivial) f.resumed f.state) hdispatch))

/-- A tick that gets further passes the place where it stands. -/
theorem Stage.passes (h : F.Stage t a w m f v) (h' : F.Stage t a w n g y) (hmn : m < n) :
    v.Passes t a f.cursor y := by
  induction h' with
  | begin => omega
  | @next k bound f' g u y hstage hstep ih =>
    by_cases hmk : m = k
    · subst hmk
      obtain ⟨rfl, rfl⟩ := h.unique hstage
      rcases advance_passes hstep with hpasses | ⟨-, _, _, hended, -⟩
      · exact hpasses
      · cases hended
    · exact (ih (by omega)).shifts (advance_shifts hstep)

theorem Stage.shifts (h : F.Stage t a w m f v) : World.Shifts w v := by
  induction h with
  | begin => exact (World.shifts_enter w t a).trans (World.shifts_checkOut _ t a)
  | next _ hstep ih => exact ih.trans (advance_shifts hstep)

/-- A walk that comes to an end passes the place where it stands, or it is over there for good. -/
theorem walk_passes {r : Except RunError Status} {s : AgentState}
    (h : (F.tickOf t a).walk (F.serve n) k f v = .done (.ended r s) y) :
    v.Passes t a f.cursor y ∨ World.Shifts v y ∧ rewinds r = true := by
  cases k with
  | zero => cases h
  | succ k =>
    rw [Tick.walk_succ, Outcome.bind_eq_done_iff] at h
    obtain ⟨p, u, hadvance, hrest⟩ := h
    cases p with
    | underway f' =>
      rcases advance_passes hadvance with hpasses | ⟨-, _, _, hended, -⟩
      · exact .inl (hpasses.shifts (walk_shifts hrest))
      · cases hended
    | ended r' s' =>
      cases hrest
      refine (advance_passes hadvance).imp_right ?_
      rintro ⟨hshifts, _, _, hended, hrewinds⟩
      cases hended
      exact ⟨hshifts, hrewinds⟩

/-- A tick that is over has gone on from each of its stages. -/
theorem Stage.walk_ended {r : Except RunError Status} {s : AgentState}
    (h : F.Stage t a w m f v) (hwalk : (F.tickOf t a).walk (F.serve n) k (.begin (w.state t a))
      ((w.enter t a).checkOut t a) = .done (.ended r s) y) :
    ∃ bound rest, (F.tickOf t a).walk (F.serve bound) rest f v = .done (.ended r s) y := by
  obtain ⟨bound, hstage⟩ := h.walk
  have hstage' := (F.tickOf t a).walk_below (F.serve_mono (Nat.le_max_left bound n)) _ _ _ _ _
    hstage
  have hwalk' := (F.tickOf t a).walk_below (F.serve_mono (Nat.le_max_right bound n)) _ _ _ _ _
    hwalk
  refine ⟨max bound n, k - m, ?_⟩
  by_cases hmk : m ≤ k
  · rw [← Tick.walk_add (k - m) hstage', Nat.add_sub_cancel' hmk, hwalk']
  · rw [Tick.walk_mono hwalk' (by omega)] at hstage'
    cases hstage'

/-- A tick that is over has passed every place where it stood, unless it was over there for good. -/
theorem Stage.over {r : Except RunError Status} (h : F.Stage t a w m f v)
    (hidle : (w.tree t).running = false) (hserve : F.serve n (.run t a) w = .done r w')
    (hsound : (w'.tree t).poisoned = false) : v.Passes t a f.cursor w' := by
  have hsound₀ := (serve_shifts hserve).sound hsound
  cases n with
  | zero => cases hserve
  | succ n =>
    have hran : F.run (F.serve n) n t a w = .done r w' := hserve
    cases run_cases hran with
    | refused hrunning => simp [hidle] at hrunning
    | poisoned _ hpoisoned => simp [hsound₀] at hpoisoned
    | lost _ _ _ hpoisoned => simp [(World.shifts_leave _ t a _).sound hsound] at hpoisoned
    | @ticked _ s w₁ _ _ hperform _ =>
      by_cases hcursor : (w.state t a).cursor < (F.tree t).program.length
      · obtain ⟨_, _, hrest⟩ := h.walk_ended (Tick.walk_of_perform hcursor hperform)
        rcases walk_passes hrest with hpasses | ⟨hshifts, hrewinds⟩
        · exact hpasses.shifts ((World.shifts_checkIn w₁ t a s).trans (World.shifts_leave _ t a _))
        · exact World.passes_leave (hshifts.trans (World.shifts_checkIn w₁ t a s)) hrewinds
      · -- The tick has begun at no instruction, so it stands there and is over.
        rw [Tick.perform, if_pos (Nat.not_lt.1 hcursor)] at hperform
        cases hperform
        cases h with
        | begin => exact World.passes_leave (World.shifts_checkIn _ t a _) rfl
        | next hstage hstep =>
          cases Tick.advance_cases hstep with
          | dispatched hget => exact absurd (hstage.begun hget) hcursor

/-- After a stage of a tick comes a further one of the same tick, or one of a later tick of the
agent, which begins in a tree that is not poisoned. Whatever operations there are in between, they
go on by shifts (`Sequence.shifts`, `Does.surrounds`). -/
inductive Later (F : Forest K A) (t : TreeId) (a : K) (w : World K A) (m : Nat) :
    World K A → Nat → Prop where
  | further {k : Nat} : m < k → Later F t a w m w k
  | again {n k : Nat} {r : Except RunError Status} {w' x : World K A} :
      (w.tree t).running = false → F.serve n (.run t a) w = .done r w' → World.Shifts w' x →
      (x.tree t).poisoned = false → Later F t a w m x k

/-- Between a stage and a later one the agent passes the place where it stood, or begins anew. -/
theorem Later.passes (h : F.Later t a w m x k) (hstage : F.Stage t a w m f v)
    (hlater : F.Stage t a x k g y) : v.Passes t a f.cursor y := by
  cases h with
  | further hmk => exact hstage.passes hlater hmk
  | again hidle hserve hshifts hsound =>
    have hover := hstage.over hidle hserve (hshifts.sound hsound)
    exact hover.shifts (hshifts.trans hlater.shifts)

/-- Who is in a loop behind its beginning, and was outside of it before, has begun it since. -/
theorem begins_between {start hi j index : Nat} {goal : UInt32} {c : Rounds}
    (hlapping : Program.Lapping start hi goal (y.track t a) j c)
    (hpasses : v.Passes t a index y) (hout : ¬ (start < index ∧ index < hi)) :
    ∃ new, y.journal = new ++ v.journal ∧ .dispatched t a start ∈ new := by
  obtain ⟨new, hjournal, e, he, hmark⟩ := hpasses
  obtain ⟨since, earlier, htrack, hsince⟩ := hlapping.inside
  refine ⟨new, hjournal, ?_⟩
  suffices hstart : some start ∈ new.filterMap (Event.mark? t a) by
    obtain ⟨e', he', hmark'⟩ := List.mem_filterMap.1 hstart
    exact Event.eq_dispatched hmark' ▸ he'
  -- The place that was passed is outside of the loop, and so is the end of a tick.
  have houtside : ∃ mark ∈ new.filterMap (Event.mark? t a), mark ∉ since.map some := by
    rcases hmark with hmark | hmark
    · refine ⟨_, List.mem_filterMap.2 ⟨e, he, hmark⟩, fun hmem => ?_⟩
      obtain ⟨k, hk, heq⟩ := List.mem_map.1 hmem
      cases heq
      exact hout (hsince _ hk)
    · exact ⟨none, List.mem_filterMap.2 ⟨e, he, hmark⟩, by simp⟩
  obtain ⟨mark, hmem, hnot⟩ := houtside
  have hsplit : new.filterMap (Event.mark? t a) ++ v.track t a =
      since.map some ++ some start :: earlier := by
    rw [← htrack, World.track, World.track, hjournal, List.filterMap_append]
  exact mem_of_append_eq hsplit hmem hnot

/-! ## Counters of loops -/

/-- The worlds at which something can be seen of a forest: where an operation can be asked for, and
where a tick stands. -/
inductive Moment (F : Forest K A) : World K A → Prop where
  | asked {c : Call K} {w : World K A} : F.Occurs c w → Moment F w
  | ticking {t : TreeId} {a : K} {m : Nat} {f : Frame} {w v : World K A} :
      F.Occurs (.run t a) w → F.Stage t a w m f v → Moment F v

theorem Moment.accounted (h : F.Moment w) : F.Accounted w := by
  cases h with
  | asked hoccurs => exact hoccurs.accounted
  | ticking hoccurs hstage => exact (hstage.walking hoccurs.accounted).accounted

/-- What the counter of a loop tells of an agent. -/
structure TellsRounds (F : Forest K A) (t : TreeId) (a : K) (start hi : Nat) (goal : UInt32) :
    Prop where
  /-- In the hands of a tick. -/
  ticking : ∀ {w m f v}, F.Occurs (.run t a) w → F.Stage t a w m f v →
    Program.Tells start hi goal (v.itinerary t a) f.cursor f.state.rounds
  /-- In the tree, while the agent is suspended or not. -/
  stored : ∀ {v s}, F.Moment v → v.agent? t a = some s →
    Program.Tells start hi goal (v.itinerary t a) s.cursor s.rounds
  /-- Where a tick stands outside of the loop, or in front of it, the loop has to be begun before
  the counter is dispatched again. -/
  left : ∀ {w m f v x k g y}, F.Stage t a w m f v → ¬ (start < f.cursor ∧ f.cursor < hi) →
    F.Later t a w m x k → F.Occurs (.run t a) x → F.Stage t a x k g y → g.cursor = start + 1 →
    ∃ new, y.journal = new ++ v.journal ∧ .dispatched t a start ∈ new

/-- A loop in the definition of a tree that counts to a goal that can be exceeded: its counter
stands behind the instruction that sets it to zero, and whatever operations there were, it tells of
each agent how often the body was entered since that was dispatched. -/
theorem tellsRounds_of_compile {root node : Node K A} {path : Path} {goal : UInt32}
    (hroot : compile root = .ok (F.tree t).program) (hat : root.at? path = some node)
    (hkind : node.kind.loop? = some (some goal)) (hpos : 0 < goal) (hgoal : goal < largestCount)
    (a : K) :
    ∃ exit, (F.tree t).program.Loop (root.offset path) (root.offset path + node.size) goal exit ∧
      F.TellsRounds t a (root.offset path) (root.offset path + node.size) goal := by
  obtain ⟨exit, hnode⟩ := (Node.enclosed_of_compile hroot).below hat
  rw [Nat.zero_add] at hnode
  have hloop := hnode.loop hkind (bound?_some hpos)
  refine ⟨exit, hloop, fun hoccurs hstage => ?_, fun hmoment hs => ?_, ?_⟩
  · have htrek := (hstage.walking hoccurs.accounted).trek
    exact World.reduceOption_track t a _ ▸ hloop.tells htrek hgoal
  · exact World.reduceOption_track t a _ ▸ hloop.tells (hmoment.accounted t a _ hs) hgoal
  · intro w m f v x k g y hstage hout hlater hoccurs hstage' hg
    have htrek := (hstage'.walking hoccurs.accounted).trek
    have hbody := hloop.body
    exact begins_between (hloop.lapping htrek (by omega) (by omega))
      (hlater.passes hstage hstage') hout

/-- A repetition of a counted loop and a task that waits for the ambient value. In the second tick
the inner loop is begun again before it counts. -/
theorem tellsRounds_of_compile_waiting :
    let wait (_ : Unit) : Hook Unit Nat TaskResult :=
      .ask .ambient fun n => .done (.ok (if n = 0 then .success else .running))
    let inner : Node Unit Nat := .whileLoop (some 1) (.succeed none) (.fail none)
    let root : Node Unit Nat := .times 2 (.sequence [inner, .action "wait" wait])
    let F : Forest Unit Nat := ⟨[{ program := ⟨[⟨.repeatStart 1, 1, 1⟩, ⟨.repeatCounter 2 2, 7, 8⟩,
      ⟨.repeatStart 3, 3, 3⟩, ⟨.repeatCounter 1 4, 6, 1⟩, ⟨.hangingSucceed, 5, 1⟩,
      ⟨.hangingFail, 6, 3⟩, ⟨.task ⟨"wait", none, wait, none⟩, 1, 1⟩]⟩ }]⟩
    let waiting : AgentState :=
      { cursor := 6, paused := true, counters := .ofList [(1, 1), (3, 2)] }
    let w : World Unit Nat :=
      { trees := .ofList [(0, { agents := .ofList [((), waiting)] })], ambient := 0,
        journal := [.left 0 () (.ok .running), .ran 0 () 6 "wait" (.ok .running),
          .dispatched 0 () 6, .dispatched 0 () 3, .dispatched 0 () 5, .dispatched 0 () 4,
          .dispatched 0 () 3, .dispatched 0 () 2, .dispatched 0 () 1, .dispatched 0 () 0,
          .entered 0 ()] }
    compile root = .ok (F.tree 0).program ∧ root.at? [0, 0] = some inner ∧
    F.Occurs (.run 0 ()) w ∧ (waiting.rounds 1).toNat = entrances 1 (6 :: w.itinerary 0 ()) ∧
    1 ≤ (waiting.rounds 1).toNat ∧ (waiting.rounds 1).toNat ≤ 2 ∧
    ∃ f v g y, F.Stage 0 () { ambient := 1 } 7 f v ∧ f.cursor = 6 ∧ F.Stage 0 () w 3 g y ∧
      g.cursor = 3 ∧ (g.state.rounds 3).toNat ≤ 1 ∧
      ∃ new, y.journal = new ++ v.journal ∧ .dispatched 0 () 2 ∈ new := by
  intro wait inner root F waiting w
  have hroot : compile root = .ok (F.tree 0).program := rfl
  have hserve : F.serve 9 (.run 0 ()) { ambient := 1 } = .done (.ok .running) _ := rfl
  have hfresh : F.Between { ambient := 1 } := .fresh fun _ _ => rfl
  have hoccurs : F.Occurs (.run 0 ()) w := .between (.outside (.after hfresh hserve) rfl rfl)
  have hnext : ∀ {w m f f' v v'}, F.Stage 0 () w m f v →
      (F.tickOf 0 ()).advance (F.serve 8) f v = .done (.underway f') v' →
        F.Stage 0 () w (m + 1) f' v' := .next
  have hbegun : F.Stage 0 () { ambient := 1 } 4 _ _ :=
    hnext (hnext (hnext (hnext .begin rfl) rfl) rfl) rfl
  have hleft : F.Stage 0 () { ambient := 1 } 7 _ _ := hnext (hnext (hnext hbegun rfl) rfl) rfl
  have hagain : F.Stage 0 () w 3 _ _ := hnext (hnext (hnext .begin rfl) rfl) rfl
  have hlater : F.Later 0 () { ambient := 1 } 7 w 3 :=
    .again rfl hserve (.single (.ambient 0)) rfl
  have hat : root.at? [0, 0] = some inner := rfl
  obtain ⟨-, -, houter⟩ :=
    tellsRounds_of_compile hroot (show root.at? [] = some root from rfl) rfl (by decide)
      (by decide) ()
  obtain ⟨-, -, hinner⟩ := tellsRounds_of_compile hroot hat rfl (by decide) (by decide) ()
  obtain ⟨htells, hsome, hmost⟩ :=
    (houter.stored (.asked hoccurs) (s := waiting) rfl).body (by decide) (by decide)
  exact ⟨hroot, hat, hoccurs, htells, hsome, hmost, _, _, _, _, hleft, rfl, hagain, rfl,
    (hinner.ticking hoccurs hagain).counter rfl,
    hinner.left hleft (by decide) hlater hoccurs hagain rfl⟩

end Forest

end TickTree

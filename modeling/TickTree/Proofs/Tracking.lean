import TickTree.Proofs.Erasure
import TickTree.Proofs.Evaluation
import TickTree.Proofs.Walks

/-!
# Walks that track activities

A walk through the code of a node is to track the evaluation of the node
(`Tick.Tracks`): where the evaluation comes to a verdict the walk arrives at the
index of that verdict, where it ends otherwise the walk ends, and where it is cut
off the walk goes on for at least as many steps. Here are the leaves, and the loops
given their rounds.

The walk logs the instructions it dispatches and the evaluation has none, so
worlds are compared up to these events. Counters matter only inside the loop they
count: a walk through a node changes no counter outside the range of its code.
-/

namespace TickTree

/-! ## Worlds up to dispatches -/

/-- Every event but a dispatch. -/
def Event.unlessDispatch {K : Type} : Event K → Option (Event K)
  | .dispatched .. => none
  | e => some e

/-- Worlds that agree up to dispatches. -/
abbrev World.Agrees {K A : Type} (w v : World K A) : Prop := World.Same Event.unlessDispatch w v

/-! ## Counters of a range -/

namespace AgentState

/-- Two states have the same counters outside a range of instructions. -/
def KeepsOutside (lo hi : Nat) (s s' : AgentState) : Prop :=
  ∀ c, c < lo ∨ hi ≤ c → s'.counters.get? c = s.counters.get? c

theorem KeepsOutside.of_eq {lo hi : Nat} {s s' : AgentState} (h : s'.counters = s.counters) :
    KeepsOutside lo hi s s' := fun c _ => by rw [h]

theorem KeepsOutside.trans {lo hi : Nat} {s s' s'' : AgentState} (h : KeepsOutside lo hi s s')
    (h' : KeepsOutside lo hi s' s'') : KeepsOutside lo hi s s'' :=
  fun c hc => (h' c hc).trans (h c hc)

theorem KeepsOutside.mono {lo hi lo' hi' : Nat} {s s' : AgentState}
    (h : KeepsOutside lo hi s s') (hlo : lo' ≤ lo) (hhi : hi ≤ hi') :
    KeepsOutside lo' hi' s s' :=
  fun c hc => h c (by omega)

theorem KeepsOutside.rounds {lo hi c : Nat} {s s' : AgentState} (h : KeepsOutside lo hi s s')
    (hc : c < lo ∨ hi ≤ c) : s'.rounds c = s.rounds c := by
  rw [AgentState.rounds, AgentState.rounds, h c hc]

theorem keepsOutside_setRounds {lo hi c : Nat} (s : AgentState) (n : UInt32) (hlo : lo ≤ c)
    (hhi : c < hi) : KeepsOutside lo hi s (s.setRounds c n) := by
  intro d hd
  exact Table.get?_set_of_ne _ _ (by omega)

@[simp]
theorem rounds_setRounds (s : AgentState) (c : Nat) (n : UInt32) :
    (s.setRounds c n).rounds c = n := by
  simp [rounds, setRounds]

end AgentState

variable {K A : Type} [DecidableEq K]

namespace Tick

/-! ## Tracking -/

/-- The walk from a frame tracks an outcome of an evaluation. For a verdict it takes at
least `least` steps and touches only counters from `lo` up to `hi`. Where the outcome is
cut off it has not ended after `bound` steps. -/
def Tracks (tick : Tick K A) (handler : Handler K A) (bound least lo hi : Nat)
    (exit : Verdict → Nat) (f : Frame) (v : World K A) :
    Outcome (World K A) (Ending × Blackboard) → Prop
  | .done (.concluded u, board) w => ∃ k spent s v', least ≤ k ∧
      tick.walk handler k f v = .done (.underway ⟨exit u, false, spent, s⟩) v' ∧
      World.Agrees w v' ∧ s.board = board ∧ AgentState.KeepsOutside lo hi f.state s
  | .done (ending, board) w => ∃ k s v',
      tick.walk handler k f v = .done (.ended ending.result s) v' ∧
      World.Agrees w v' ∧ s.board = board ∧ s.cursor = ending.cursor ∧ s.paused = ending.paused
  | .cutOff _ => ∀ k ≤ bound, ∀ r s v', tick.walk handler k f v ≠ .done (.ended r s) v'

/-- The walk from an index tracks an activity, whatever the state it begins with. -/
def Realizes (tick : Tick K A) (handler : Handler K A) (bound least lo hi start : Nat)
    (exit : Verdict → Nat) (act : Activity K A) : Prop :=
  ∀ spent s w v, World.Agrees w v →
    tick.Tracks handler bound least lo hi exit ⟨start, false, spent, s⟩ v (act s.board w)

variable {tick : Tick K A} {handler : Handler K A} {bound least lo hi : Nat}
  {exit : Verdict → Nat} {f : Frame} {v : World K A}
  {out : Outcome (World K A) (Ending × Blackboard)}

theorem Tracks.mono {bound' least' lo' hi' : Nat}
    (h : tick.Tracks handler bound least lo hi exit f v out) (hbound : bound' ≤ bound)
    (hleast : least' ≤ least) (hlo : lo' ≤ lo) (hhi : hi ≤ hi') :
    tick.Tracks handler bound' least' lo' hi' exit f v out := by
  match out, h with
  | .done (.concluded u, board) w, ⟨k, spent, s, v', hk, hwalk, hw, hboard, hkeep⟩ =>
    exact ⟨k, spent, s, v', by omega, hwalk, hw, hboard, hkeep.mono hlo hhi⟩
  | .done (.suspended i, board) w, h => exact h
  | .done (.failed e, board) w, h => exact h
  | .cutOff w, h => exact fun k hk => h k (by omega)

/-- Steps that the evaluation does not see may come first. -/
theorem Tracks.after {k : Nat} {f' : Frame} {v' : World K A}
    (hwalk : tick.walk handler k f v = .done (.underway f') v')
    (hkeep : AgentState.KeepsOutside lo hi f.state f'.state)
    (h : tick.Tracks handler bound least lo hi exit f' v' out) :
    tick.Tracks handler (k + bound) (k + least) lo hi exit f v out := by
  match out, h with
  | .done (.concluded u, board) w, ⟨j, spent, s, v'', hj, hwalk', hw, hboard, hkeep'⟩ =>
    exact ⟨k + j, spent, s, v'', by omega, by rw [walk_add j hwalk, hwalk'], hw, hboard,
      hkeep.trans hkeep'⟩
  | .done (.suspended i, board) w, ⟨j, s, v'', hwalk', hrest⟩ =>
    exact ⟨k + j, s, v'', by rw [walk_add j hwalk, hwalk'], hrest⟩
  | .done (.failed e, board) w, ⟨j, s, v'', hwalk', hrest⟩ =>
    exact ⟨k + j, s, v'', by rw [walk_add j hwalk, hwalk'], hrest⟩
  | .cutOff w, h =>
    intro j hj r s v''
    by_cases hle : j ≤ k
    · exact walk_ne_ended hwalk hle r s v''
    · obtain ⟨i, rfl⟩ : ∃ i, j = k + i := ⟨j - k, by omega⟩
      rw [walk_add i hwalk]
      exact h i (by omega) r s v''

theorem Tracks.conclude {u : Verdict} {w : World K A} {spent : Nat} {s : AgentState}
    (hw : World.Agrees w v) :
    tick.Tracks handler bound 0 lo hi exit ⟨exit u, false, spent, s⟩ v
      (Activity.conclude u s.board w) :=
  ⟨0, spent, s, v, Nat.le_refl 0, rfl, hw, rfl, .of_eq rfl⟩

/-- One activity after the other. What follows begins where the verdict of the first
goes, in the counters that the first has left. -/
theorem Tracks.andThen {bound₁ lo₁ hi₁ : Nat} {exit₁ : Verdict → Nat}
    {first : Activity K A} {next : Verdict → Activity K A} {board : Blackboard} {w : World K A}
    (hfirst : tick.Tracks handler bound₁ least lo₁ hi₁ exit₁ f v (first board w)) (bound₂ : Nat)
    (hnext : ∀ u spent s w' v', World.Agrees w' v' → AgentState.KeepsOutside lo₁ hi₁ f.state s →
      tick.Tracks handler bound₂ 0 lo hi exit ⟨exit₁ u, false, spent, s⟩ v' (next u s.board w'))
    (hlo : lo ≤ lo₁) (hhi : hi₁ ≤ hi) (hbound₁ : bound ≤ bound₁)
    (hbound₂ : bound ≤ least + bound₂) :
    tick.Tracks handler bound least lo hi exit f v ((first.andThen next) board w) := by
  rw [Activity.andThen]
  generalize first board w = out at hfirst
  match out, hfirst with
  | .done (.concluded u, _) w', ⟨k, spent, s, v', hk, hwalk, hw, rfl, hkeep⟩ =>
    have hafter := Tracks.after hwalk (hkeep.mono hlo hhi) (hnext u spent s w' v' hw hkeep)
    exact hafter.mono (by omega) (by omega) (Nat.le_refl _) (Nat.le_refl _)
  | .done (.suspended i, _) w', h => exact h
  | .done (.failed e, _) w', h => exact h
  | .cutOff w', h => exact fun k hk => h k (by omega)

/-! ## Single steps -/

omit [DecidableEq K] in
theorem agrees_dispatched {w : World K A} (hw : World.Agrees w v) (t : TreeId) (a : K)
    (index : Nat) : World.Agrees w (v.log (.dispatched t a index)) :=
  (hw.symm.log_unseen rfl).symm

theorem Tracks.of_goto {u : Verdict} {w v' : World K A} {spent : Nat} {s : AgentState}
    {board : Blackboard}
    (hstep : tick.advance handler f v = .done (.underway ⟨exit u, false, spent, s⟩) v')
    (hw : World.Agrees w v') (hboard : s.board = board)
    (hkeep : AgentState.KeepsOutside lo hi f.state s) :
    tick.Tracks handler bound 1 lo hi exit f v (.done (.concluded u, board) w) :=
  ⟨1, spent, s, v', Nat.le_refl 1, walk_one hstep, hw, hboard, hkeep⟩

theorem Tracks.of_suspend {w v' : World K A} {index : Nat} {s : AgentState} {board : Blackboard}
    (hstep : tick.advance handler f v = .done (.ended (.ok .running) (s.suspendAt index)) v')
    (hw : World.Agrees w v') (hboard : s.board = board) :
    tick.Tracks handler bound least lo hi exit f v (.done (.suspended index, board) w) :=
  ⟨1, s.suspendAt index, v', walk_one_ended hstep, hw, hboard, rfl, rfl⟩

theorem Tracks.of_stop {w v' : World K A} {e : RunError} {s : AgentState} {board : Blackboard}
    (hstep : tick.advance handler f v = .done (.ended (.error e) s.rewind) v')
    (hw : World.Agrees w v') (hboard : s.board = board) :
    tick.Tracks handler bound least lo hi exit f v (.done (.failed e, board) w) :=
  ⟨1, s.rewind, v', walk_one_ended hstep, hw, hboard, rfl, rfl⟩

theorem Tracks.of_cutOff {w v' : World K A} (hstep : tick.advance handler f v = .cutOff v') :
    tick.Tracks handler bound least lo hi exit f v (.cutOff w) := by
  intro k _ r s v''
  cases k with
  | zero => simp
  | succ k => simp [walk_succ, hstep]

/-! ## Leaves -/

/-- Visiting a task is the activity of the task, with the ending told by its status. -/
theorem visit_eq_task (index : Nat) (task : RunnableTask K A) (board : Blackboard)
    (w : World K A) :
    Activity.task tick handler index task board w =
      (tick.visit handler index task false board w).map fun answer =>
        (match answer.1 with
          | .success => .concluded .success
          | .failure => .concluded .failure
          | .running => .suspended index, answer.2) := by
  simp only [Activity.task, visit, Bool.false_eq_true, if_false]
  cases tick.beginVisit handler index task board w with
  | cutOff w₁ => rfl
  | done board₁ w₁ =>
    simp only [Outcome.bind_done]
    cases (task.run tick.agent).perform handler board₁ w₁ with
    | cutOff w₂ => rfl
    | done answer w₂ =>
      simp only [Outcome.bind_done]
      cases TaskResult.status answer.1 with
      | running => rfl
      | success =>
        simp only [Status.isDone, if_true]
        cases tick.endVisit handler index task .success answer.2 _ <;> rfl
      | failure =>
        simp only [Status.isDone, if_true]
        cases tick.endVisit handler index task .failure answer.2 _ <;> rfl

section

variable {start : Nat} (hfree : tick.tree.config.effectiveLimit = none)

include hfree

theorem realizes_hangingSucceed
    (hget : tick.tree.program.get? start = some ⟨.hangingSucceed, exit .success, exit .failure⟩) :
    tick.Realizes handler bound 1 lo hi start exit (.conclude .success) := by
  intro spent s w v hw
  have hstep := advance_of_get? tick handler ⟨start, false, spent, s⟩ hfree hget v
  exact .of_goto (u := .success) hstep (agrees_dispatched hw _ _ _) rfl (.of_eq rfl)

theorem realizes_hangingFail
    (hget : tick.tree.program.get? start = some ⟨.hangingFail, exit .success, exit .failure⟩) :
    tick.Realizes handler bound 1 lo hi start exit (.conclude .failure) := by
  intro spent s w v hw
  have hstep := advance_of_get? tick handler ⟨start, false, spent, s⟩ hfree hget v
  exact .of_goto (u := .failure) hstep (agrees_dispatched hw _ _ _) rfl (.of_eq rfl)

theorem realizes_query {q : Query}
    (hget : tick.tree.program.get? start = some ⟨.query q, exit .success, exit .failure⟩) :
    tick.Realizes handler bound 1 lo hi start exit (.query tick start q) := by
  intro spent s w v hw
  have hstep := advance_of_get? tick handler ⟨start, false, spent, s⟩ hfree hget v
  have hlogged := agrees_dispatched hw tick.id tick.agent start
  have hregistry : tick.tree.registry.map w.registry = tick.tree.registry.map
      (v.log (.dispatched tick.id tick.agent start)).registry :=
    Option.map_congr fun r _ => hlogged.registry r
  simp only [dispatch, ← hregistry] at hstep
  simp only [Activity.query]
  cases hfind : q.find s.board (tick.tree.registry.map w.registry) with
  | error e =>
    rw [hfind] at hstep
    exact .of_stop hstep (hlogged.log _) rfl
  | ok found =>
    rw [hfind] at hstep
    cases found with
    | none => exact .of_goto (u := .failure) hstep (hlogged.log _) rfl (.of_eq rfl)
    | some b =>
      cases b with
      | true => exact .of_goto (u := .success) hstep hlogged rfl (.of_eq rfl)
      | false => exact .of_goto (u := .failure) hstep hlogged rfl (.of_eq rfl)

theorem realizes_link (hh : handler.Oblivious Event.unlessDispatch) {l : Link}
    (hget : tick.tree.program.get? start = some ⟨.subTree l, exit .success, exit .failure⟩) :
    tick.Realizes handler bound 1 lo hi start exit (.link tick handler start l) := by
  intro spent s w v hw
  have hstep := advance_of_get? tick handler ⟨start, false, spent, s⟩ hfree hget v
  have hlogged := agrees_dispatched hw tick.id tick.agent start
  rw [dispatch_subTree _ _ rfl] at hstep
  have halike := hh (.run l.tree tick.agent) _ _ hlogged
  simp only [Activity.link]
  cases hrun : handler (.run l.tree tick.agent) w with
  | cutOff w₁ =>
    rw [hrun] at halike
    obtain ⟨v₁, hv⟩ := halike.cutOff_inv
    rw [hv] at hstep
    exact .of_cutOff hstep
  | done result w₁ =>
    rw [hrun] at halike
    obtain ⟨v₁, hv, hagree⟩ := halike.done_inv
    rw [hv] at hstep
    match result, hstep with
    | .ok .success, hstep => exact .of_goto (u := .success) hstep hagree rfl (.of_eq rfl)
    | .ok .failure, hstep => exact .of_goto (u := .failure) hstep hagree rfl (.of_eq rfl)
    | .ok .running, hstep => exact .of_suspend hstep hagree rfl
    | .error e, hstep => exact .of_stop hstep (hagree.log _) rfl

theorem realizes_task (hh : handler.Oblivious Event.unlessDispatch) {task : RunnableTask K A}
    (hget : tick.tree.program.get? start = some ⟨.task task, exit .success, exit .failure⟩) :
    tick.Realizes handler bound 1 lo hi start exit (.task tick handler start task) := by
  intro spent s w v hw
  have hstep := advance_of_get? tick handler ⟨start, false, spent, s⟩ hfree hget v
  have hlogged := agrees_dispatched hw tick.id tick.agent start
  rw [dispatch_task _ _ rfl] at hstep
  have halike := tick.visit_oblivious hh start task false s.board _ _ hlogged
  rw [visit_eq_task]
  cases hvisit : tick.visit handler start task false s.board w with
  | cutOff w₁ =>
    rw [hvisit] at halike
    obtain ⟨v₁, hv⟩ := halike.cutOff_inv
    rw [hv] at hstep
    exact .of_cutOff hstep
  | done answer w₁ =>
    rw [hvisit] at halike
    obtain ⟨v₁, hv, hagree⟩ := halike.done_inv
    rw [hv] at hstep
    obtain ⟨status, board⟩ := answer
    cases status with
    | success => exact .of_goto (u := .success) hstep hagree rfl (.of_eq rfl)
    | failure => exact .of_goto (u := .failure) hstep hagree rfl (.of_eq rfl)
    | running => exact .of_suspend hstep hagree rfl

/-- A random branch tracks the drawing of an entry if each entry is tracked from its
target. -/
theorem realizes_drawn {table : List Nat} {entries : List (Nat × Activity K A)}
    (htable : table = entries.map Prod.fst) (hne : table ≠ [])
    (hget : tick.tree.program.get? start = some ⟨.randomBranch table, exit .success, exit .failure⟩)
    (hentries : ∀ entry ∈ entries,
      tick.Realizes handler bound 0 lo hi entry.1 exit entry.2) :
    tick.Realizes handler bound 1 lo hi start exit (.drawn tick start entries) := by
  intro spent s w v hw
  have hstep := advance_of_get? tick handler ⟨start, false, spent, s⟩ hfree hget v
  have hlogged := agrees_dispatched hw tick.id tick.agent start
  cases entries with
  | nil => exact absurd htable hne
  | cons first rest =>
    subst htable
    obtain ⟨⟨place, drawn⟩, hdraw⟩ : ∃ p,
        Random.draw tick.tree.words (rest.length + 1) (w.tree tick.id).drawn = p := ⟨_, rfl⟩
    have hdraw' : Random.draw tick.tree.words ((rest.map Prod.fst).length + 1)
        ((v.log (.dispatched tick.id tick.agent start)).tree tick.id).drawn = (place, drawn) := by
      rw [List.length_map, ← hlogged.tree, hdraw]
    rw [List.map_cons, dispatch_randomBranch _ _ rfl _ _ _ _ hdraw'] at hstep
    simp only [Activity.drawn, hdraw]
    have htarget : (first.1 :: rest.map Prod.fst)[place]?.getD first.1 =
        ((first :: rest)[place]?.getD first).1 := by
      rw [← List.map_cons, List.getElem?_map]
      cases (first :: rest)[place]? <;> rfl
    have hmem := getD_mem_table first rest place
    rw [htarget] at hstep
    generalize (first :: rest)[place]?.getD first = chosen at hstep hmem
    exact (Tracks.after (walk_one hstep) (.of_eq rfl)
      (hentries chosen hmem _ s _ _ ((hlogged.modifyTree _ _).log _))).mono (by omega) (by omega)
        (Nat.le_refl _) (Nat.le_refl _)

end

/-! ## Rounds of loops -/

/-- A round tracks from the body of the loop, given that what follows it does from where
the loop begins again. The body leaves the counters before it alone, and takes a step at
least. -/
def RoundTracks (tick : Tick K A) (handler : Handler K A) (bound lo hi body again : Nat)
    (exit : Verdict → Nat) (round : Activity K A → Activity K A) : Prop :=
  ∀ (next : Activity K A) bound₁ bound₂ spent s w v, bound₁ ≤ bound → bound₁ ≤ bound₂ + 1 →
    World.Agrees w v →
    (∀ spent' s' w' v', World.Agrees w' v' → AgentState.KeepsOutside body hi s s' →
      tick.Tracks handler bound₂ 0 lo hi exit ⟨again, false, spent', s'⟩ v' (next s'.board w')) →
    tick.Tracks handler bound₁ 1 lo hi exit ⟨body, false, spent, s⟩ v (round next s.board w)

section

variable {start : Nat} {round : Activity K A → Activity K A}

theorem repeatRound_tracks {breakOnFail : Bool} {child : Activity K A} {body again : Nat}
    (hchild : tick.Realizes handler bound 1 body hi body
      (if breakOnFail then toward .success again exit else fun _ => again) child)
    (hlo : lo ≤ body) :
    tick.RoundTracks handler bound lo hi body again exit (.repeatRound breakOnFail child) := by
  intro next bound₁ bound₂ spent s w v hbound₁ hbound₂ hw hnext
  refine (hchild spent s w v hw).andThen bound₂ ?_ hlo (Nat.le_refl hi) hbound₁
    (by omega)
  intro u spent' s' w' v' hw' hkeep
  cases breakOnFail with
  | false => simpa using hnext spent' s' w' v' hw' hkeep
  | true =>
    cases u with
    | success => simpa using hnext spent' s' w' v' hw' hkeep
    | failure => simpa [toward] using Tracks.conclude hw'

theorem whileRound_tracks {condition action : Activity K A} {body middle again : Nat}
    (hcondition : tick.Realizes handler bound 1 body hi body (toward .success middle exit)
      condition)
    (haction : tick.Realizes handler bound 1 body hi middle (toward .failure again exit) action)
    (hlo : lo ≤ body) :
    tick.RoundTracks handler bound lo hi body again exit (.whileRound condition action) := by
  intro next bound₁ bound₂ spent s w v hbound₁ hbound₂ hw hnext
  refine (hcondition spent s w v hw).andThen bound₁ ?_ hlo (Nat.le_refl hi) hbound₁
    (by omega)
  intro u spent₁ s₁ w₁ v₁ hw₁ hkeep₁
  cases u with
  | failure => simpa [toward] using Tracks.conclude hw₁
  | success =>
    simp only [toward_self]
    refine ((haction spent₁ s₁ w₁ v₁ hw₁).andThen bound₂ ?_ hlo (Nat.le_refl hi)
      hbound₁ (by omega)).mono (Nat.le_refl _) (Nat.zero_le _) (Nat.le_refl _) (Nat.le_refl _)
    intro u spent₂ s₂ w₂ v₂ hw₂ hkeep₂
    cases u with
    | success => simpa [toward] using Tracks.conclude hw₂
    | failure => simpa using hnext spent₂ s₂ w₂ v₂ hw₂ (hkeep₁.trans hkeep₂)

/-- A loop without counter: each of its rounds takes a step, so after as many steps as
rounds it has not ended. -/
theorem tracks_endless {body : Nat}
    (hround : tick.RoundTracks handler bound lo hi body body exit round) {n : Nat}
    (hn : n ≤ bound) (spent : Nat) (s : AgentState) (w v : World K A) (hw : World.Agrees w v) :
    tick.Tracks handler n 1 lo hi exit ⟨body, false, spent, s⟩ v
      (Activity.rounds round .endless n s.board w) := by
  induction n generalizing spent s w v with
  | zero =>
    intro k hk r s' v'
    obtain rfl : k = 0 := by omega
    simp
  | succ n ih =>
    refine hround _ (n + 1) n spent s w v hn (Nat.le_refl _) hw ?_
    intro spent' s' w' v' hw' _
    exact (ih (by omega) spent' s' w' v' hw').mono (Nat.le_refl _) (Nat.zero_le _)
      (Nat.le_refl _) (Nat.le_refl _)

variable (hfree : tick.tree.config.effectiveLimit = none)

include hfree

theorem walk_counter (handler : Handler K A) {c body yes no : Nat} {goal : UInt32}
    (hget : tick.tree.program.get? c = some ⟨.repeatCounter goal body, yes, no⟩) (spent : Nat)
    (s : AgentState) (v : World K A) :
    tick.walk handler 1 ⟨c, false, spent, s⟩ v =
      .done (.underway ⟨if s.rounds c + 1 > goal then yes else body, false, spent + 1,
        s.setRounds c (s.rounds c + 1)⟩) (v.log (.dispatched tick.id tick.agent c)) := by
  have hstep := advance_of_get? tick handler ⟨c, false, spent, s⟩ hfree hget v
  exact walk_one hstep

theorem walk_repeatStart (handler : Handler K A) {counter yes no : Nat}
    (hget : tick.tree.program.get? start = some ⟨.repeatStart counter, yes, no⟩) (spent : Nat)
    (s : AgentState) (v : World K A) :
    tick.walk handler 1 ⟨start, false, spent, s⟩ v =
      .done (.underway ⟨yes, false, spent + 1, s.setRounds counter 0⟩)
        (v.log (.dispatched tick.id tick.agent start)) := by
  have hstep := advance_of_get? tick handler ⟨start, false, spent, s⟩ hfree hget v
  exact walk_one hstep

/-- A counted loop at its counter, with `n` rounds to go. -/
theorem tracks_counted {c body : Nat} {goal : UInt32}
    (hget : tick.tree.program.get? c =
      some ⟨.repeatCounter goal body, exit .success, exit .failure⟩)
    (hround : tick.RoundTracks handler bound lo hi body c exit round)
    (hgoal : goal.toNat + 1 < Nat.pow 2 32) (hlo : lo ≤ c) (hc : c < body) (hhi : body ≤ hi)
    {n : Nat} (spent : Nat) (s : AgentState) (w v : World K A) (hw : World.Agrees w v)
    (hs : (s.rounds c).toNat + n = goal.toNat) :
    tick.Tracks handler bound 1 lo hi exit ⟨c, false, spent, s⟩ v
      (Activity.rounds round (.conclude .success) n s.board w) := by
  have hwalk := walk_counter hfree handler hget
  have hkeep : ∀ s : AgentState, AgentState.KeepsOutside lo hi s (s.setRounds c (s.rounds c + 1)) :=
    fun s => s.keepsOutside_setRounds _ hlo (by omega)
  have hnext : (s.rounds c + 1).toNat = (s.rounds c).toNat + 1 := by
    rw [UInt32.toNat_add, UInt32.toNat_one]
    exact Nat.mod_eq_of_lt (by have : Nat.pow 2 32 = 2 ^ 32 := rfl; omega)
  induction n generalizing spent s w v with
  | zero =>
    have hleave : s.rounds c + 1 > goal := by
      rw [gt_iff_lt, UInt32.lt_iff_toNat_lt]
      omega
    have hstep := hwalk spent s v
    rw [if_pos hleave] at hstep
    have hw' := agrees_dispatched hw tick.id tick.agent c
    have hend : tick.Tracks handler bound 0 lo hi exit
        ⟨exit .success, false, spent + 1, s.setRounds c (s.rounds c + 1)⟩
        (v.log (.dispatched tick.id tick.agent c)) (.done (.concluded .success, s.board) w) :=
      Tracks.conclude hw'
    exact (Tracks.after hstep (hkeep s) hend).mono (by omega) (by omega) (Nat.le_refl _)
      (Nat.le_refl _)
  | succ n ih =>
    have hstay : ¬ s.rounds c + 1 > goal := by
      rw [gt_iff_lt, UInt32.lt_iff_toNat_lt]
      omega
    have hstep := hwalk spent s v
    rw [if_neg hstay] at hstep
    have hw' := agrees_dispatched hw tick.id tick.agent c
    have hbody := hround (Activity.rounds round (.conclude .success) n) bound bound (spent + 1)
      (s.setRounds c (s.rounds c + 1)) w _ (Nat.le_refl _) (by omega) hw' ?_
    · exact (Tracks.after hstep (hkeep s) hbody).mono (by omega) (by omega) (Nat.le_refl _)
        (Nat.le_refl _)
    · intro spent' s' w' v' hw'' hsame
      have hrounds : s'.rounds c = s.rounds c + 1 := by
        rw [hsame.rounds (.inl hc), AgentState.rounds_setRounds]
      refine (ih spent' s' w' v' hw'' (by rw [hrounds, hnext]; omega) ?_).mono (Nat.le_refl _)
        (Nat.zero_le _) (Nat.le_refl _) (Nat.le_refl _)
      rw [hrounds, UInt32.toNat_add, UInt32.toNat_one, hnext]
      exact Nat.mod_eq_of_lt (by have : Nat.pow 2 32 = 2 ^ 32 := rfl; omega)

/-- A loop whose counter cannot exceed its goal never leaves by the counter. -/
theorem tracks_overflowing {c body : Nat} {goal : UInt32}
    (hget : tick.tree.program.get? c =
      some ⟨.repeatCounter goal body, exit .success, exit .failure⟩)
    (hround : tick.RoundTracks handler bound lo hi body c exit round)
    (hgoal : ¬ goal.toNat + 1 < Nat.pow 2 32) (hlo : lo ≤ c) (hc : c < body) (hhi : body ≤ hi)
    {n : Nat} (hn : n ≤ bound) (spent : Nat) (s : AgentState) (w v : World K A)
    (hw : World.Agrees w v) :
    tick.Tracks handler n 1 lo hi exit ⟨c, false, spent, s⟩ v
      (Activity.rounds round .endless n s.board w) := by
  induction n generalizing spent s w v with
  | zero =>
    intro k hk r s' v'
    obtain rfl : k = 0 := by omega
    simp
  | succ n ih =>
    have hstay : ¬ s.rounds c + 1 > goal := by
      have hlt := (s.rounds c + 1).toNat_lt
      rw [gt_iff_lt, UInt32.lt_iff_toNat_lt]
      have : Nat.pow 2 32 = 2 ^ 32 := rfl
      omega
    have hstep := walk_counter hfree handler hget spent s v
    rw [if_neg hstay] at hstep
    have hw' := agrees_dispatched hw tick.id tick.agent c
    have hbody := hround (Activity.rounds round .endless n) (n + 1) n (spent + 1)
      (s.setRounds c (s.rounds c + 1)) w _ hn (Nat.le_refl _) hw' ?_
    · exact (Tracks.after hstep (s.keepsOutside_setRounds _ hlo (by omega)) hbody).mono
        (by omega) (by omega) (Nat.le_refl _) (Nat.le_refl _)
    · intro spent' s' w' v' hw'' _
      exact (ih (by omega) spent' s' w' v' hw'').mono (Nat.le_refl _) (Nat.zero_le _)
        (Nat.le_refl _) (Nat.le_refl _)

/-- A loop tracks if its rounds do. -/
theorem realizes_loop {count : Option UInt32}
    (hhead : HeadPlaced tick.tree.program count start exit)
    (hround : tick.RoundTracks handler bound start hi (start + headSize count)
      (loopAgain start count) exit round) (hhi : start + headSize count ≤ hi) :
    tick.Realizes handler bound 1 start hi start exit
      (.loop roundsCounted bound count round) := by
  intro spent s w v hw
  rw [Activity.loop]
  cases hcount : bound? count with
  | none =>
    have hreading : roundsCounted count = none := by
      simp [roundsCounted, roundsOf, hcount]
    rw [headSize, loopAgain, hcount] at hround
    rw [hreading]
    exact tracks_endless hround (Nat.le_refl bound) spent s w v hw
  | some goal =>
    obtain ⟨hstart, hcounter⟩ := hhead goal hcount
    have hhi : start + 2 ≤ hi := by simpa [headSize, hcount] using hhi
    rw [headSize, loopAgain, hcount] at hround
    have hstep := walk_repeatStart hfree handler hstart spent s v
    have hw' := agrees_dispatched hw tick.id tick.agent start
    have hkeep : AgentState.KeepsOutside start hi s (s.setRounds (start + 1) 0) :=
      s.keepsOutside_setRounds 0 (by omega) (by omega)
    by_cases hgoal : goal.toNat + 1 < Nat.pow 2 32
    · have hreading : roundsCounted count = some goal.toNat := by
        simp [roundsCounted, roundsOf, hcount, Option.filter, hgoal]
      rw [hreading]
      have hrounds := tracks_counted hfree hcounter hround hgoal (by omega) (by omega) hhi
        (spent + 1) (s.setRounds (start + 1) 0) w _ hw' (n := goal.toNat) (by simp)
      exact (Tracks.after hstep hkeep hrounds).mono (by omega) (by omega) (Nat.le_refl _)
        (Nat.le_refl _)
    · have hreading : roundsCounted count = none := by
        simp [roundsCounted, roundsOf, hcount, Option.filter, hgoal]
      rw [hreading]
      have hrounds := tracks_overflowing hfree hcounter hround hgoal (by omega) (by omega) hhi
        (Nat.le_refl bound) (spent + 1) (s.setRounds (start + 1) 0) w _ hw'
      exact (Tracks.after hstep hkeep hrounds).mono (by omega) (by omega) (Nat.le_refl _)
        (Nat.le_refl _)

end

end Tick

end TickTree

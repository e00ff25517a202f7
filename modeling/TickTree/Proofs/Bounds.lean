import TickTree.Proofs.Operations
import TickTree.Proofs.Walks

/-!
# Larger bounds

A bound only says how far a computation may get. What is answered within one bound is
answered within every larger one, by the same events (`Forest.serve_mono`): handlers that
answer more calls change nothing about hooks, walks and operations that had their answers.
-/

namespace TickTree

/-! ## Computations -/

namespace Outcome

variable {σ α β : Type} {o o' : Outcome σ α}

/-- What one computation comes to, another does. -/
def Below (o o' : Outcome σ α) : Prop := ∀ a s, o = .done a s → o' = .done a s

theorem Below.refl (o : Outcome σ α) : o.Below o := fun _ _ h => h

theorem Below.cutOff {s : σ} : (Outcome.cutOff s : Outcome σ α).Below o' := fun _ _ h => nomatch h

theorem Below.bind {f g : α → σ → Outcome σ β} (h : o.Below o')
    (hnext : ∀ a s, (f a s).Below (g a s)) : (o.bind f).Below (o'.bind g) := by
  intro b s hdone
  obtain ⟨a, s₁, ho, hf⟩ := bind_eq_done_iff.1 hdone
  rw [h a s₁ ho]
  exact hnext a s₁ b s hf

theorem Below.map {f : α → β} (h : o.Below o') : (o.map f).Below (o'.map f) :=
  h.bind fun _ _ => .refl _

end Outcome

/-! ## Handlers -/

variable {K A : Type} [DecidableEq K]

/-- What one handler answers, another does. -/
def Handler.Below (handler handler' : Handler K A) : Prop :=
  ∀ c w, (handler c w).Below (handler' c w)

variable {handler handler' : Handler K A}

theorem Request.answer_below (h : handler.Below handler') (r : Request K A) (board : Blackboard)
    (w : World K A) : (r.answer handler board w).Below (r.answer handler' board w) := by
  cases r with
  | call c => exact (h c w).map
  | _ => exact .refl _

theorem Hook.perform_below (h : handler.Below handler') {α : Type} (hook : Hook K A α)
    (board : Blackboard) (w : World K A) :
    (hook.perform handler board w).Below (hook.perform handler' board w) := by
  induction hook generalizing board w with
  | done a => exact .refl _
  | ask r next ih =>
    rw [Hook.perform_ask, Hook.perform_ask]
    exact (r.answer_below h board w).bind fun reply w' => ih reply.1 reply.2 w'

namespace Tick

variable (tick : Tick K A)

theorem beginVisit_below (h : handler.Below handler') (index : Nat) (task : RunnableTask K A)
    (board : Blackboard) (w : World K A) :
    (tick.beginVisit handler index task board w).Below
      (tick.beginVisit handler' index task board w) := by
  rw [beginVisit, beginVisit]
  cases task.start with
  | none => exact .refl _
  | some hook => exact ((hook tick.agent).perform_below h board _).map

theorem endVisit_below (h : handler.Below handler') (index : Nat) (task : RunnableTask K A)
    (status : Status) (board : Blackboard) (w : World K A) :
    (tick.endVisit handler index task status board w).Below
      (tick.endVisit handler' index task status board w) := by
  rw [endVisit, endVisit]
  cases task.finish with
  | none => exact .refl _
  | some hook => exact ((hook tick.agent status).perform_below h board _).map

theorem visit_below (h : handler.Below handler') (index : Nat) (task : RunnableTask K A)
    (resumed : Bool) (board : Blackboard) (w : World K A) :
    (tick.visit handler index task resumed board w).Below
      (tick.visit handler' index task resumed board w) := by
  have hbegin : (if resumed then .done board w
        else tick.beginVisit handler index task board w).Below
      (if resumed then .done board w else tick.beginVisit handler' index task board w) := by
    cases resumed with
    | true => exact .refl _
    | false => exact tick.beginVisit_below h index task board w
  refine hbegin.bind fun board₁ w₁ => ((task.run tick.agent).perform_below h board₁ w₁).bind
    fun answer w₂ => ?_
  by_cases hdone : (TaskResult.status answer.1).isDone = true
  · simp only [hdone, if_true]
    exact (tick.endVisit_below h index task _ _ _).map
  · simp only [hdone]
    exact .refl _

theorem dispatch_below (h : handler.Below handler') (index : Nat) (resumed : Bool)
    (i : Instruction Nat K A) (s : AgentState) (w : World K A) :
    (tick.dispatch handler index resumed i s w).Below
      (tick.dispatch handler' index resumed i s w) := by
  obtain ⟨op, yes, no⟩ := i
  cases op with
  | task task =>
    rw [dispatch_task _ _ rfl, dispatch_task _ _ rfl]
    exact (tick.visit_below h index task resumed s.board w).map
  | subTree link =>
    rw [dispatch_subTree _ _ rfl, dispatch_subTree _ _ rfl]
    refine (h (.run link.tree tick.agent) w).bind fun result w₁ => ?_
    cases result <;> exact .refl _
  | randomBranch table =>
    cases table with
    | nil => exact .refl _
    | cons first rest =>
      obtain ⟨⟨place, drawn⟩, hdraw⟩ : ∃ p,
          Random.draw tick.tree.words (rest.length + 1) (w.tree tick.id).drawn = p := ⟨_, rfl⟩
      rw [dispatch_randomBranch _ _ rfl _ _ _ _ hdraw, dispatch_randomBranch _ _ rfl _ _ _ _ hdraw]
      exact .refl _
  | query | repeatStart | repeatCounter | hangingSucceed | hangingFail => exact .refl _

theorem advance_below (h : handler.Below handler') (f : Frame) (w : World K A) :
    (tick.advance handler f w).Below (tick.advance handler' f w) := by
  rw [advance, advance]
  cases tick.tree.program.get? f.cursor with
  | none => exact .refl _
  | some i =>
    cases tick.exhausted f with
    | some limit => exact .refl _
    | none => exact (tick.dispatch_below h f.cursor f.resumed i f.state _).map

theorem walk_below (h : handler.Below handler') (n : Nat) (f : Frame) (w : World K A) :
    (tick.walk handler n f w).Below (tick.walk handler' n f w) := by
  induction n generalizing f w with
  | zero => exact .refl _
  | succ n ih =>
    rw [walk_succ, walk_succ]
    refine (tick.advance_below h f w).bind fun p w₁ => ?_
    cases p with
    | underway g => exact ih g w₁
    | ended r s => exact .refl _

/-- A tick that has its result has it under every larger bound. -/
theorem perform_below (h : handler.Below handler') {m n : Nat} (hmn : m ≤ n) (s : AgentState)
    (w : World K A) : (tick.perform handler m s w).Below (tick.perform handler' n s w) := by
  intro ⟨result, s'⟩ w' hdone
  by_cases hcursor : s.cursor < tick.tree.program.length
  · have hwalk := tick.walk_below h m _ _ _ _ (walk_of_perform hcursor hdone)
    exact perform_of_walk hcursor (walk_mono hwalk hmn)
  · rw [perform, if_pos (Nat.le_of_not_lt hcursor)] at hdone ⊢
    exact hdone

end Tick

/-! ## Operations -/

namespace Forest

variable (F : Forest K A)

theorem run_below (h : handler.Below handler') {m n : Nat} (hmn : m ≤ n) (t : TreeId) (a : K)
    (w : World K A) : (F.run handler m t a w).Below (F.run handler' n t a w) := by
  rw [run, run]
  by_cases hrunning : (w.tree t).running = true
  · rw [if_pos hrunning, if_pos hrunning]
    exact .refl _
  rw [if_neg hrunning, if_neg hrunning]
  simp only
  split
  · exact .refl _
  · exact (Tick.perform_below _ h hmn _ _).bind fun _ _ => .refl _

theorem cancel_below (h : handler.Below handler') (t : TreeId) (a : K) (s : AgentState)
    (w : World K A) : (F.cancel handler t a s w).Below (F.cancel handler' t a s w) := by
  rw [cancel, cancel]
  split
  · exact Tick.endVisit_below _ h _ _ _ _ _
  · exact (h _ w).map
  · exact .refl _

theorem abort_below (h : handler.Below handler') (t : TreeId) (a : K) (w : World K A) :
    (F.abort handler t a w).Below (F.abort handler' t a w) := by
  rw [abort, abort]
  split
  · exact .refl _
  · split
    · exact .refl _
    · exact (F.cancel_below h t a _ _).bind fun _ _ => .refl _

theorem remove_below (h : handler.Below handler') (t : TreeId) (a : K) (w : World K A) :
    (F.remove handler t a w).Below (F.remove handler' t a w) := by
  rw [remove, remove]
  split
  · exact .refl _
  · split
    · exact .refl _
    · simp only
      split
      · exact (h _ _).map
      · exact .refl _

theorem answer_below (h : handler.Below handler') {m n : Nat} (hmn : m ≤ n) :
    Handler.Below (F.answer handler m) (F.answer handler' n) := by
  intro c w
  cases c with
  | run t a => exact F.run_below h hmn t a w
  | abort t a => exact F.abort_below h t a w
  | remove t a => exact F.remove_below h t a w
  | update t a edit => exact .refl _

/-- A call that is answered within a bound is answered the same within every larger one. -/
theorem serve_mono {m n : Nat} (h : m ≤ n) : Handler.Below (F.serve m) (F.serve n) := by
  induction m generalizing n with
  | zero => exact fun c w => .cutOff
  | succ m ih =>
    obtain ⟨n, rfl⟩ : ∃ k, n = k + 1 := ⟨n - 1, by omega⟩
    exact F.answer_below (ih (by omega)) (by omega)

variable {F}

/-- Whatever the bounds, a call has one answer. -/
theorem serve_unique {m n : Nat} {c : Call K} {w v v' : World K A} {r r' : c.Reply}
    (h : F.serve m c w = .done r v) (h' : F.serve n c w = .done r' v') : r = r' ∧ v = v' := by
  have hm := F.serve_mono (Nat.le_max_left m n) c w _ _ h
  have hn := F.serve_mono (Nat.le_max_right m n) c w _ _ h'
  rw [hm] at hn
  cases hn
  exact ⟨rfl, rfl⟩

/-- A call is answered, within some bound. -/
def Answers (F : Forest K A) (c : Call K) (w : World K A) (reply : c.Reply)
    (w' : World K A) : Prop :=
  ∃ n, F.serve n c w = .done reply w'

theorem Answers.unique {c : Call K} {w w₁ w₂ : World K A} {reply reply' : c.Reply}
    (h : F.Answers c w reply w₁) (h' : F.Answers c w reply' w₂) : reply = reply' ∧ w₁ = w₂ :=
  h.elim fun _ hm => h'.elim fun _ hn => serve_unique hm hn

end Forest

end TickTree

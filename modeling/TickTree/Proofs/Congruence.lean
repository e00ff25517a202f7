import TickTree.Operation

/-!
# What hooks cannot tell apart

A relation of worlds is a congruence if the requests of hooks read the same of related worlds
and lead to related worlds again (`World.Congruence`). If calls are answered alike in related
worlds, then so is all that a hook does, and a whole visit of a task comes to the same answer in
both (`Tick.visit_respects`).
-/

namespace TickTree

/-! ## Alike outcomes -/

/-- Two outcomes are alike when both have the same answer or none, in related states. -/
inductive Outcome.Alike {σ τ α : Type} (R : σ → τ → Prop) : Outcome σ α → Outcome τ α → Prop where
  | done {a : α} {s : σ} {t : τ} : R s t → Alike R (.done a s) (.done a t)
  | cutOff {s : σ} {t : τ} : R s t → Alike R (.cutOff s) (.cutOff t)

namespace Outcome

variable {σ τ α β : Type} {R : σ → τ → Prop}

theorem Alike.bind {o : Outcome σ α} {p : Outcome τ α} {f : α → σ → Outcome σ β}
    {g : α → τ → Outcome τ β} (h : Alike R o p)
    (hnext : ∀ a s t, R s t → Alike R (f a s) (g a t)) : Alike R (o.bind f) (p.bind g) := by
  cases h with
  | done hst => exact hnext _ _ _ hst
  | cutOff hst => exact .cutOff hst

theorem Alike.map {o : Outcome σ α} {p : Outcome τ α} (f : α → β) (h : Alike R o p) :
    Alike R (o.map f) (p.map f) :=
  h.bind fun _ _ _ hst => .done hst

theorem Alike.done_inv {a : α} {s : σ} {p : Outcome τ α} (h : Alike R (.done a s) p) :
    ∃ t, p = .done a t ∧ R s t := by
  cases h with
  | done hst => exact ⟨_, rfl, hst⟩

theorem Alike.cutOff_inv {s : σ} {p : Outcome τ α} (h : Alike R (.cutOff s : Outcome σ α) p) :
    ∃ t, p = .cutOff t := by
  cases h with
  | cutOff _ => exact ⟨_, rfl⟩

end Outcome

/-! ## Congruences -/

section

variable {K A α : Type}

/-- A computation that comes to the same answer in related worlds, and to related worlds. -/
def Respects (R : World K A → World K A → Prop) (f : World K A → Outcome (World K A) α) : Prop :=
  ∀ w v, R w v → Outcome.Alike R (f w) (f v)

/-- A handler that gives the same answers in related worlds. -/
def Handler.Respects (R : World K A → World K A → Prop) (handler : Handler K A) : Prop :=
  ∀ c, TickTree.Respects R (handler c)

variable [DecidableEq K]

/-- A relation of worlds that hooks cannot tell apart, as long as they issue no calls. -/
structure World.Congruence (R : World K A → World K A → Prop) : Prop where
  ambient : ∀ {w v}, R w v → w.ambient = v.ambient
  registry : ∀ {w v}, R w v → ∀ r, w.registry r = v.registry r
  view : ∀ {w v}, R w v → ∀ t a, w.view t a = v.view t a
  setAmbient : ∀ {w v}, R w v → ∀ value, R { w with ambient := value } { v with ambient := value }
  setRegistry : ∀ {w v}, R w v → ∀ id r, R (w.setRegistry id r) (v.setRegistry id r)
  log : ∀ {w v}, R w v → ∀ e, R (w.log e) (v.log e)

variable {R : World K A → World K A → Prop} {handler : Handler K A}

theorem Request.answer_respects (hR : World.Congruence R) (hh : handler.Respects R)
    (r : Request K A) (board : Blackboard) : Respects R (r.answer handler board) := by
  intro w v h
  cases r with
  | board => exact .done h
  | setBoard board' => exact .done h
  | ambient =>
    rw [Request.answer, Request.answer, hR.ambient h]
    exact .done h
  | setAmbient value => exact .done (hR.setAmbient h value)
  | registry id command =>
    rw [Request.answer, Request.answer, hR.registry h id]
    exact .done (hR.setRegistry h id _)
  | call c => exact (hh c w v h).map _
  | inspect t a =>
    have hview := hR.view h t a
    have hrunning : (w.tree t).running = (v.tree t).running := congrArg View.running hview
    rw [Request.answer, Request.answer, hview, hrunning]
    exact .done (hR.log h _)
  | note n => exact .done (hR.log h _)

theorem Hook.perform_respects (hR : World.Congruence R) (hh : handler.Respects R)
    (hook : Hook K A α) (board : Blackboard) : Respects R (hook.perform handler board) := by
  induction hook generalizing board with
  | done a => exact fun w v h => .done h
  | ask r next ih =>
    intro w v h
    rw [Hook.perform_ask, Hook.perform_ask]
    exact (Request.answer_respects hR hh r board w v h).bind fun reply w' v' h' =>
      ih reply.1 reply.2 w' v' h'

namespace Tick

variable (tick : Tick K A)

theorem beginVisit_respects (hR : World.Congruence R) (hh : handler.Respects R) (index : Nat)
    (task : RunnableTask K A) (board : Blackboard) :
    Respects R (tick.beginVisit handler index task board) := by
  intro w v h
  rw [beginVisit, beginVisit]
  cases task.start with
  | none => exact .done h
  | some hook => exact (Hook.perform_respects hR hh _ board _ _ (hR.log h _)).map _

theorem endVisit_respects (hR : World.Congruence R) (hh : handler.Respects R) (index : Nat)
    (task : RunnableTask K A) (status : Status) (board : Blackboard) :
    Respects R (tick.endVisit handler index task status board) := by
  intro w v h
  rw [endVisit, endVisit]
  cases task.finish with
  | none => exact .done h
  | some hook => exact (Hook.perform_respects hR hh _ board _ _ (hR.log h _)).map _

/-- A visit comes to the same where hooks cannot tell worlds apart. -/
theorem visit_respects (hR : World.Congruence R) (hh : handler.Respects R) (index : Nat)
    (task : RunnableTask K A) (resumed : Bool) (board : Blackboard) :
    Respects R (tick.visit handler index task resumed board) := by
  intro w v h
  rw [visit, visit]
  have hbegin : Outcome.Alike R
      (if resumed then .done board w else tick.beginVisit handler index task board w)
      (if resumed then .done board v else tick.beginVisit handler index task board v) := by
    cases resumed with
    | true => exact .done h
    | false => exact tick.beginVisit_respects hR hh index task board w v h
  refine hbegin.bind fun board w v h => ?_
  refine (Hook.perform_respects hR hh _ board w v h).bind fun answer w v h => ?_
  have hran := hR.log h (.ran tick.id tick.agent index task.name answer.1)
  simp only
  split
  · exact (tick.endVisit_respects hR hh index task _ _ _ _ hran).map _
  · exact .done hran

end Tick

end

end TickTree

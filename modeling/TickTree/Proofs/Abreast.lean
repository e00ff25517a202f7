import TickTree.Proofs.Quiet

/-!
# Hooks that look outward

A hook looks outward when it asks for nothing of the agent's own board and of no tree. Two
worlds that agree in everything outside the trees, and in what hooks have been called for
so far, cannot be told apart by such hooks (`World.Beside`). The same visit in both,
whichever trees and instructions it is for, comes to the same and leaves the worlds beside
each other (`Tick.visit_abreast`).
-/

namespace TickTree

variable {K A : Type}

/-- A request for nothing of the agent's own board and of no tree. -/
def Request.Outward : Request K A → Prop
  | .ambient | .setAmbient _ | .registry .. | .note _ => True
  | .board | .setBoard _ | .call _ | .inspect .. => False

/-! ## Deeds -/

/-- A call of a hook, or a note, wherever it comes from. -/
inductive Deed (K : Type) where
  /-- A task's start hook was called. -/
  | started (agent : K) (task : String)
  /-- A task's run hook was called and answered. -/
  | ran (agent : K) (task : String) (result : TaskResult)
  /-- A task's finish hook was called. -/
  | finished (agent : K) (task : String) (status : Status)
  /-- Somebody left a note. -/
  | noted (note : Note)
deriving DecidableEq

/-- The deed an event tells of. -/
def Event.deed? : Event K → Option (Deed K)
  | .started _ a _ task => some (.started a task)
  | .ran _ a _ task result => some (.ran a task result)
  | .finished _ a _ task status => some (.finished a task status)
  | .noted n => some (.noted n)
  | _ => none

/-- The deeds so far, oldest first. -/
def World.deeds (w : World K A) : List (Deed K) := w.history.filterMap Event.deed?

theorem World.deeds_log (w : World K A) (e : Event K) :
    (w.log e).deeds = w.deeds ++ e.deed?.toList := by
  cases h : e.deed? <;> simp [deeds, history, log, h]

/-! ## Worlds beside each other -/

namespace World

/-- Two worlds agree outside the trees, and in the deeds so far. -/
structure Beside (w v : World K A) : Prop where
  registries : w.registries = v.registries
  ambient : w.ambient = v.ambient
  deeds : w.deeds = v.deeds

variable {w v : World K A}

theorem Beside.refl (w : World K A) : Beside w w := ⟨rfl, rfl, rfl⟩

theorem Beside.registry (h : Beside w v) (r : RegistryId) : w.registry r = v.registry r := by
  rw [World.registry, World.registry, h.registries]

theorem Beside.log {e e' : Event K} (h : Beside w v) (he : e.deed? = e'.deed?) :
    Beside (w.log e) (v.log e') :=
  ⟨h.registries, h.ambient, by rw [deeds_log, deeds_log, h.deeds, he]⟩

theorem Beside.log_left {e : Event K} (h : Beside w v) (he : e.deed? = none) :
    Beside (w.log e) v :=
  ⟨h.registries, h.ambient, by rw [deeds_log, he, h.deeds, Option.toList_none, List.append_nil]⟩

theorem Beside.log_right {e : Event K} (h : Beside w v) (he : e.deed? = none) :
    Beside w (v.log e) :=
  ⟨h.registries, h.ambient, by rw [deeds_log, he, h.deeds, Option.toList_none, List.append_nil]⟩

theorem Beside.modify_left (h : Beside w v) (t : TreeId) (f : TreeState K → TreeState K) :
    Beside (w.modifyTree t f) v := ⟨h.registries, h.ambient, h.deeds⟩

theorem Beside.modify_right (h : Beside w v) (t : TreeId) (f : TreeState K → TreeState K) :
    Beside w (v.modifyTree t f) := ⟨h.registries, h.ambient, h.deeds⟩

/-- Two computations both come to answers that are related, leave the worlds beside each
other, and touch no tree. -/
inductive Abreast {α β : Type} (w v : World K A) (R : α → β → Prop) :
    Outcome (World K A) α → Outcome (World K A) β → Prop where
  | done {x : α} {y : β} {w' v' : World K A} : R x y → Beside w' v' → w'.trees = w.trees →
      v'.trees = v.trees → Abreast w v R (.done x w') (.done y v')

theorem Abreast.bind {α β α' β' : Type} {R : α → β → Prop} {S : α' → β' → Prop}
    {o : Outcome (World K A) α} {o' : Outcome (World K A) β}
    {f : α → World K A → Outcome (World K A) α'} {g : β → World K A → Outcome (World K A) β'}
    (h : Abreast w v R o o')
    (hnext : ∀ x y w' v', R x y → Beside w' v' → Abreast w' v' S (f x w') (g y v')) :
    Abreast w v S (o.bind f) (o'.bind g) := by
  cases h with
  | @done x y w' v' hxy hbeside htrees htrees' =>
    have hrest := hnext x y w' v' hxy hbeside
    simp only [Outcome.bind_done]
    generalize f x w' = p at hrest ⊢
    generalize g y v' = p' at hrest ⊢
    cases hrest with
    | done hS hbeside₁ htrees₁ htrees₁' =>
      exact .done hS hbeside₁ (htrees₁.trans htrees) (htrees₁'.trans htrees')

theorem Abreast.map {α β α' β' : Type} {R : α → β → Prop} {S : α' → β' → Prop}
    {o : Outcome (World K A) α} {o' : Outcome (World K A) β} {f : α → α'} {g : β → β'}
    (h : Abreast w v R o o') (hnext : ∀ x y, R x y → S (f x) (g y)) :
    Abreast w v S (o.map f) (o'.map g) :=
  h.bind fun x y _ _ hxy hbeside => .done (hnext x y hxy) hbeside rfl rfl

theorem Abreast.imp {α β : Type} {R S : α → β → Prop} {o : Outcome (World K A) α}
    {o' : Outcome (World K A) β} (h : Abreast w v R o o') (himp : ∀ x y, R x y → S x y) :
    Abreast w v S o o' := by
  cases h with
  | done hR hbeside htrees htrees' => exact .done (himp _ _ hR) hbeside htrees htrees'

/-- What is logged before counts for both, and touches no tree. -/
theorem Abreast.logged {α β : Type} {R : α → β → Prop} {o : Outcome (World K A) α}
    {o' : Outcome (World K A) β} {e e' : Event K} (h : Abreast (w.log e) (v.log e') R o o') :
    Abreast w v R o o' := by
  cases h with
  | done hR hbeside htrees htrees' => exact .done hR hbeside htrees htrees'

end World

/-! ## Hooks -/

variable [DecidableEq K] {handler handler' : Handler K A} {w v : World K A}

/-- Two boards come back as they were lent. -/
def Lent (board board' : Blackboard) (x y : Blackboard) : Prop := x = board ∧ y = board'

/-- Two answers with boards are the same, and the boards as lent. -/
def SameOn {α : Type} (board board' : Blackboard) (x y : α × Blackboard) : Prop :=
  x.1 = y.1 ∧ Lent board board' x.2 y.2

theorem World.Beside.perform (handler handler' : Handler K A) {α : Type} {hook : Hook K A α}
    (h : w.Beside v) (hq : hook.Asks Request.Outward) (board board' : Blackboard) :
    w.Abreast v (SameOn board board') (hook.perform handler board w)
      (hook.perform handler' board' v) := by
  induction hook generalizing w v with
  | done a => exact .done ⟨rfl, rfl, rfl⟩ h rfl rfl
  | ask r next ih =>
    obtain ⟨hr, hnext⟩ := hq.inv
    rw [Hook.perform_ask, Hook.perform_ask]
    have hanswer : w.Abreast v (SameOn board board') (r.answer handler board w)
        (r.answer handler' board' v) := by
      cases r with
      | ambient => exact .done ⟨h.ambient, rfl, rfl⟩ h rfl rfl
      | setAmbient value => exact .done ⟨rfl, rfl, rfl⟩ ⟨h.registries, rfl, h.deeds⟩ rfl rfl
      | registry id command =>
        simp only [Request.answer, h.registry id]
        refine .done ⟨rfl, rfl, rfl⟩ ⟨?_, h.ambient, h.deeds⟩ rfl rfl
        simp only [World.setRegistry, h.registries]
      | note n => exact .done ⟨rfl, rfl, rfl⟩ (h.log rfl) rfl rfl
      | board | setBoard | call | inspect => exact hr.elim
    refine hanswer.bind ?_
    rintro ⟨reply, _⟩ ⟨_, _⟩ w' v' ⟨rfl, rfl, rfl⟩ hbeside
    exact ih _ hbeside (hnext reply)

namespace Tick

variable {tick tick' : Tick K A} {task : RunnableTask K A} {index index' : Nat}
  {board board' : Blackboard}

theorem beginVisit_abreast (hq : task.Asks Request.Outward) (hagent : tick'.agent = tick.agent)
    (h : w.Beside v) :
    w.Abreast v (Lent board board')
      (tick.beginVisit handler index task board w)
      (tick'.beginVisit handler' index' task board' v) := by
  rw [beginVisit, beginVisit, hagent]
  cases hstart : task.start with
  | none => exact .done ⟨rfl, rfl⟩ h rfl rfl
  | some hook =>
    have hlogged : (w.log (.started tick.id tick.agent index task.name)).Beside
        (v.log (.started tick'.id tick.agent index' task.name)) := h.log rfl
    have hperform := hlogged.perform handler handler' (hq.start hstart tick.agent) board board'
    exact (hperform.map (S := Lent board board') fun _ _ hsame => hsame.2).logged

theorem endVisit_abreast (hq : task.Asks Request.Outward) (hagent : tick'.agent = tick.agent)
    (status : Status) (h : w.Beside v) :
    w.Abreast v (Lent board board')
      (tick.endVisit handler index task status board w)
      (tick'.endVisit handler' index' task status board' v) := by
  rw [endVisit, endVisit, hagent]
  cases hfinish : task.finish with
  | none => exact .done ⟨rfl, rfl⟩ h rfl rfl
  | some hook =>
    have hlogged : (w.log (.finished tick.id tick.agent index task.name status)).Beside
        (v.log (.finished tick'.id tick.agent index' task.name status)) := h.log rfl
    have hperform := hlogged.perform handler handler' (hq.finish hfinish tick.agent status)
      board board'
    exact (hperform.map (S := Lent board board') fun _ _ hsame => hsame.2).logged

/-- The same visit for the same agent comes to the same in worlds beside each other. -/
theorem visit_abreast (hq : task.Asks Request.Outward) (hagent : tick'.agent = tick.agent)
    (resumed : Bool) (h : w.Beside v) :
    w.Abreast v (SameOn board board') (tick.visit handler index task resumed board w)
      (tick'.visit handler' index' task resumed board' v) := by
  have hbegin : w.Abreast v (Lent board board')
      (if resumed then .done board w else tick.beginVisit handler index task board w)
      (if resumed then .done board' v else tick'.beginVisit handler' index' task board' v) := by
    cases resumed with
    | true => exact .done ⟨rfl, rfl⟩ h rfl rfl
    | false => exact beginVisit_abreast hq hagent h
  refine hbegin.bind ?_
  rintro board₁ board₁' w₁ v₁ ⟨rfl, rfl⟩ hbeside
  rw [hagent]
  refine (hbeside.perform handler handler' (hq.run tick.agent) board₁ board₁').bind ?_
  rintro ⟨result, _⟩ ⟨_, _⟩ w₂ v₂ ⟨rfl, rfl, rfl⟩ hbeside₂
  have hlogged : (w₂.log (.ran tick.id tick.agent index task.name result)).Beside
      (v₂.log (.ran tick'.id tick.agent index' task.name result)) := hbeside₂.log rfl
  by_cases hdone : (TaskResult.status result).isDone = true
  · simp only [hdone, if_true]
    exact ((endVisit_abreast hq hagent _ hlogged).map fun _ _ hboards => ⟨rfl, hboards⟩).logged
  · simp only [hdone]
    exact .done ⟨rfl, rfl, rfl⟩ hlogged rfl rfl

end Tick

end TickTree

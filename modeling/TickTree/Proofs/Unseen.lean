import TickTree.Proofs.Lasting

/-!
# What is out of sight

Two worlds may differ in trees and registries that an operation has nothing to do with: it comes
to the same in both. Which trees and registries count is a `Sight`. Worlds are alongside each other
if they agree in all that is in sight (`World.Alongside`).

An operation that is for a tree in sight can reach out of sight in three ways. It can issue a call
for a tree out of sight; a hook can look at such a tree; a query can read a registry out of sight.
The last two are in the journal (`Forest.Notices`). As long as nothing of this happens the courses
of an operation from both worlds go by the same calls (`Course.Mirrors`, `Forest.course_mirrors`),
and so the whole operation comes to the same (`Forest.Does.unseen`). Nothing is said of what is in
sight, so this holds of hooks whatever they do, as long as they ask nothing of a registry out of
sight (`Request.InSight`): such a command is in no journal.
-/

namespace TickTree

variable {K A α β : Type}

/-! ## Worlds alongside each other -/

/-- Which trees and which registries are in sight. -/
structure Sight where
  /-- The trees in sight. -/
  trees : TreeId → Prop := fun _ => True
  /-- The registries in sight. -/
  registries : RegistryId → Prop := fun _ => True

/-- All but one tree. -/
def Sight.butTree (t : TreeId) : Sight := { trees := (· ≠ t) }

/-- All but one registry. -/
def Sight.butRegistry (r : RegistryId) : Sight := { registries := (· ≠ r) }

/-- Two worlds that agree in all that is in sight. What is out of sight is in each of them as it
was in an earlier world. -/
structure World.Alongside (s : Sight) (w₀ v₀ w v : World K A) : Prop where
  since : w₀.journal <:+ w.journal
  trees : ∀ {t}, s.trees t → w.tree t = v.tree t
  registries : ∀ {r}, s.registries r → w.registry r = v.registry r
  ambient : w.ambient = v.ambient
  journal : w.journal = v.journal
  treesOut : ∀ {t}, ¬ s.trees t → w.tree t = w₀.tree t ∧ v.tree t = v₀.tree t
  registriesOut : ∀ {r}, ¬ s.registries r →
    w.registry r = w₀.registry r ∧ v.registry r = v₀.registry r

namespace World.Alongside

variable {s : Sight} {w₀ v₀ w v : World K A}

/-- What is alongside each other from two worlds on that are so from earlier ones on. -/
theorem trans {w' v' : World K A} (h : Alongside s w₀ v₀ w v) (h' : Alongside s w v w' v') :
    Alongside s w₀ v₀ w' v' :=
  { h' with
    since := h.since.trans h'.since
    treesOut := fun ht => ⟨(h'.treesOut ht).1.trans (h.treesOut ht).1,
      (h'.treesOut ht).2.trans (h.treesOut ht).2⟩
    registriesOut := fun hr => ⟨(h'.registriesOut hr).1.trans (h.registriesOut hr).1,
      (h'.registriesOut hr).2.trans (h.registriesOut hr).2⟩ }

theorem restart (h : Alongside s w₀ v₀ w v) : Alongside s w v w v :=
  { h with
    since := List.suffix_rfl
    treesOut := fun _ => ⟨rfl, rfl⟩
    registriesOut := fun _ => ⟨rfl, rfl⟩ }

/-- A world and one in which a single tree is in another state. -/
theorem of_modifyTree (w : World K A) (t : TreeId) (f : TreeState K → TreeState K) :
    Alongside (.butTree t) w (w.modifyTree t f) w (w.modifyTree t f) where
  since := List.suffix_rfl
  trees hu := (tree_modifyTree_of_ne w f (Ne.symm hu)).symm
  registries _ := rfl
  ambient := rfl
  journal := rfl
  treesOut _ := ⟨rfl, rfl⟩
  registriesOut _ := ⟨rfl, rfl⟩

/-- A world and one in which a single registry is another one. -/
theorem of_setRegistry (w : World K A) (id : RegistryId) (r : Registry) :
    Alongside (.butRegistry id) w (w.setRegistry id r) w (w.setRegistry id r) where
  since := List.suffix_rfl
  trees _ := rfl
  registries hx := by rw [registry_setRegistry, if_neg (Ne.symm hx)]
  ambient := rfl
  journal := rfl
  treesOut _ := ⟨rfl, rfl⟩
  registriesOut _ := ⟨rfl, rfl⟩

theorem log (h : Alongside s w₀ v₀ w v) (e : Event K) : Alongside s w₀ v₀ (w.log e) (v.log e) :=
  { h with
    since := h.since.trans (List.suffix_cons e _)
    journal := congrArg (e :: ·) h.journal }

theorem setAmbient (h : Alongside s w₀ v₀ w v) (value : A) :
    Alongside s w₀ v₀ { w with ambient := value } { v with ambient := value } :=
  { h with ambient := rfl }

theorem modifyTree (h : Alongside s w₀ v₀ w v) {t : TreeId} (ht : s.trees t)
    (f : TreeState K → TreeState K) : Alongside s w₀ v₀ (w.modifyTree t f) (v.modifyTree t f) :=
  { h with
    trees := fun {u} hu => by rw [tree_modifyTree, tree_modifyTree, h.trees ht, h.trees hu]
    treesOut := fun {u} hu => by
      have hne : t ≠ u := fun htu => hu (htu ▸ ht)
      rw [tree_modifyTree_of_ne w f hne, tree_modifyTree_of_ne v f hne]
      exact h.treesOut hu }

theorem setRegistry (h : Alongside s w₀ v₀ w v) {id : RegistryId} (hid : s.registries id)
    (r : Registry) : Alongside s w₀ v₀ (w.setRegistry id r) (v.setRegistry id r) :=
  { h with
    registries := fun {x} hx => by
      rw [registry_setRegistry, registry_setRegistry, h.registries hx]
    registriesOut := fun {x} hx => by
      have hne : id ≠ x := fun hidx => hx (hidx ▸ hid)
      rw [registry_setRegistry, registry_setRegistry, if_neg hne, if_neg hne]
      exact h.registriesOut hx }

theorem enter (h : Alongside s w₀ v₀ w v) {t : TreeId} (ht : s.trees t) (a : K) :
    Alongside s w₀ v₀ (w.enter t a) (v.enter t a) := (h.modifyTree ht _).log _

theorem leave (h : Alongside s w₀ v₀ w v) {t : TreeId} (ht : s.trees t) (a : K)
    (r : Except RunError Status) : Alongside s w₀ v₀ (w.leave t a r) (v.leave t a r) :=
  (h.modifyTree ht _).log _

variable [DecidableEq K]

theorem agent? (h : Alongside s w₀ v₀ w v) {t : TreeId} (ht : s.trees t) (a : K) :
    w.agent? t a = v.agent? t a := by
  rw [World.agent?, World.agent?, h.trees ht]

theorem view (h : Alongside s w₀ v₀ w v) {t : TreeId} (ht : s.trees t) (a : K) :
    w.view t a = v.view t a := by
  rw [World.view, World.view, h.agent? ht, h.trees ht]

theorem state (h : Alongside s w₀ v₀ w v) {t : TreeId} (ht : s.trees t) (a : K) :
    w.state t a = v.state t a := by
  rw [World.state, World.state, h.agent? ht]

theorem checkOut (h : Alongside s w₀ v₀ w v) {t : TreeId} (ht : s.trees t) (a : K) :
    Alongside s w₀ v₀ (w.checkOut t a) (v.checkOut t a) := h.modifyTree ht _

theorem checkIn (h : Alongside s w₀ v₀ w v) {t : TreeId} (ht : s.trees t) (a : K) (x : AgentState) :
    Alongside s w₀ v₀ (w.checkIn t a x) (v.checkIn t a x) := h.modifyTree ht _

end World.Alongside

/-! ## What is noticed -/

/-- From one world to a later one such an event is logged. -/
def World.Logs (P : Event K → Prop) (w v : World K A) : Prop :=
  ∃ es, v.journal = es ++ w.journal ∧ ∃ e ∈ es, P e

namespace World.Logs

variable {P : Event K → Prop} {w v u : World K A}

theorem later (h : Logs P w v) (hvu : v.journal <:+ u.journal) : Logs P w u := by
  obtain ⟨es, hes, e, he, hP⟩ := h
  obtain ⟨more, hmore⟩ := hvu
  exact ⟨more ++ es, by rw [← hmore, hes, List.append_assoc], e, List.mem_append_right more he, hP⟩

theorem earlier (h : Logs P v u) (hwv : w.journal <:+ v.journal) : Logs P w u := by
  obtain ⟨es, hes, e, he, hP⟩ := h
  obtain ⟨more, hmore⟩ := hwv
  exact ⟨es ++ more, by rw [hes, ← hmore, List.append_assoc], e, List.mem_append_left more he, hP⟩

/-- An event that is logged at some later time is logged. -/
theorem now (hwv : w.journal <:+ v.journal) {e : Event K} (he : P e) : Logs P w (v.log e) :=
  earlier ⟨[e], rfl, e, .head _, he⟩ hwv

theorem log (h : Logs P w v) (e : Event K) : Logs P w (v.log e) :=
  h.later (List.suffix_cons e v.journal)

theorem mono {Q : Event K → Prop} (h : Logs P w v) (hPQ : ∀ e, P e → Q e) : Logs Q w v := by
  obtain ⟨es, hes, e, he, hP⟩ := h
  exact ⟨es, hes, e, he, hPQ e hP⟩

end World.Logs

/-- The instruction at an index is a query of a shared board, and the tree reads shared boards
from this registry. -/
def Tree.ReadsAt (T : Tree K A) (index : Nat) (r : RegistryId) : Prop :=
  ∃ i q name, T.program.get? index = some i ∧ i.op = .query q ∧ q.board = .shared name ∧
    T.registry = some r

/-- Something out of sight was looked at, or read. -/
def Forest.Notices (F : Forest K A) (s : Sight) : Event K → Prop
  | .looked t _ _ => ¬ s.trees t
  | .dispatched t _ index => ∃ r, (F.tree t).ReadsAt index r ∧ ¬ s.registries r
  | _ => False

/-- A request that asks nothing of a registry out of sight. -/
def Request.InSight (s : Sight) : Request K A → Prop
  | .registry id _ => s.registries id
  | _ => True

theorem Forest.notices_butTree {F : Forest K A} {t : TreeId} {e : Event K}
    (h : F.Notices (.butTree t) e) : ∃ a running, e = .looked t a running := by
  cases e with
  | looked u a running =>
    obtain rfl : u = t := Decidable.not_not.1 h
    exact ⟨a, running, rfl⟩
  | dispatched =>
    obtain ⟨_, _, hr⟩ := h
    exact absurd trivial hr
  | _ => exact h.elim

theorem Forest.notices_butRegistry {F : Forest K A} {r : RegistryId} {e : Event K}
    (h : F.Notices (.butRegistry r) e) :
    ∃ t a index, e = .dispatched t a index ∧ (F.tree t).ReadsAt index r := by
  cases e with
  | looked => exact absurd trivial h
  | dispatched t a index =>
    obtain ⟨x, hreads, hx⟩ := h
    obtain rfl : x = r := Decidable.not_not.1 hx
    exact ⟨t, a, index, rfl, hreads⟩
  | _ => exact h.elim

theorem Request.inSight_butTree {t : TreeId} (r : Request K A) : r.InSight (.butTree t) := by
  cases r <;> trivial

/-! ## Courses that mirror each other -/

/-- The first stretch of a course ends in a world like this. -/
def Course.Starts (N : World K A → Prop) : Course K A α → Prop
  | .done _ w => N w
  | .cutOff _ => True
  | .call _ w _ => N w

/-- Two courses go by the same calls and come to the same answer, in related worlds, until a call
is not allowed or a world is such that it does not matter any more. -/
def Course.Mirrors (R : World K A → World K A → Prop) (N : World K A → Prop)
    (allowed : Call K → Prop) : Course K A α → Course K A α → Prop
  | .done a w, course' => N w ∨ ∃ v, course' = .done a v ∧ R w v
  | .cutOff _, _ => True
  | .call c w next, course' => N w ∨ ¬ allowed c ∨ ∃ v next', course' = .call c v next' ∧ R w v ∧
      ∀ r w₁ v₁, R w₁ v₁ → (next r w₁).Mirrors R N allowed (next' r v₁)

namespace Course

variable {R : World K A → World K A → Prop} {N : World K A → Prop} {allowed : Call K → Prop}
  {course course' : Course K A α} {w v : World K A}

theorem Starts.mirrors (h : course.Starts N) : course.Mirrors R N allowed course' := by
  cases course with
  | done => exact .inl h
  | cutOff => trivial
  | call => exact .inl h

theorem Keeps.starts {R' : World K A → World K A → Prop} (h : course.Keeps R' w)
    (hN : ∀ v, R' w v → N v) : course.Starts N := by
  cases course with
  | done => exact hN _ h
  | cutOff => trivial
  | call => exact hN _ h.1

theorem mirrors_done {a : α} (h : R w v) :
    (Course.done a w).Mirrors R N allowed (.done a v) := .inr ⟨v, rfl, h⟩

theorem Mirrors.bind {f f' : α → World K A → Course K A β} (h : course.Mirrors R N allowed course')
    (hlost : ∀ a w, N w → (f a w).Starts N)
    (hnext : ∀ a w v, R w v → (f a w).Mirrors R N allowed (f' a v)) :
    (course.bind f).Mirrors R N allowed (course'.bind f') := by
  induction course generalizing course' with
  | done a w =>
    rcases h with hN | ⟨v, rfl, hR⟩
    · exact (hlost a w hN).mirrors
    · exact hnext a w v hR
  | cutOff w => trivial
  | call c w next ih =>
    rcases h with hN | hc | ⟨v, next', rfl, hR, hrest⟩
    · exact .inl hN
    · exact .inr (.inl hc)
    · exact .inr (.inr ⟨v, _, rfl, hR, fun r w₁ v₁ hR₁ => ih r w₁ (hrest r w₁ v₁ hR₁)⟩)

theorem Mirrors.map (h : course.Mirrors R N allowed course') (f : α → β) :
    (course.map f).Mirrors R N allowed (course'.map f) :=
  h.bind (fun _ _ hN => hN) fun _ _ _ hR => mirrors_done hR

end Course

/-! ## Hooks and ticks -/

variable [DecidableEq K] {F : Forest K A} {s : Sight} {w₀ v₀ w v : World K A}

/-- Two courses mirror each other as far as nothing out of sight is noticed. -/
abbrev Course.Unseen (F : Forest K A) (s : Sight) (w₀ v₀ : World K A) :
    Course K A α → Course K A α → Prop :=
  Course.Mirrors (World.Alongside s w₀ v₀) (World.Logs (F.Notices s) w₀) fun c => s.trees c.tree

omit [DecidableEq K] in
theorem Course.Keeps.lost {course : Course K A α} (h : course.Keeps World.Shifts w)
    (hN : World.Logs (F.Notices s) w₀ w) : course.Starts (World.Logs (F.Notices s) w₀) :=
  h.starts fun _ hv => hN.later hv.journal

theorem Request.course_mirrors {r : Request K A} (hr : r.InSight s) (board : Blackboard)
    (h : World.Alongside s w₀ v₀ w v) :
    (r.course board w).Unseen F s w₀ v₀ (r.course board v) := by
  cases r with
  | board | setBoard => exact Course.mirrors_done h
  | ambient =>
    refine .inr ⟨v, ?_, h⟩
    rw [h.ambient]
    rfl
  | setAmbient value => exact Course.mirrors_done (h.setAmbient value)
  | registry id c =>
    refine .inr ⟨_, ?_, h.setRegistry hr ((w.registry id).answer c).2⟩
    rw [h.registries hr]
    rfl
  | call c =>
    by_cases hc : s.trees c.tree
    · exact .inr (.inr ⟨v, _, rfl, h, fun _ _ _ hR => Course.mirrors_done hR⟩)
    · exact .inr (.inl hc)
  | inspect t a =>
    by_cases ht : s.trees t
    · refine .inr ⟨_, ?_, h.log (.looked t a (w.tree t).running)⟩
      rw [h.view ht, h.trees ht]
      rfl
    · exact .inl (.now h.since ht)
  | note n => exact Course.mirrors_done (h.log _)

/-- What a hook comes to is not changed by what is out of sight. -/
theorem Hook.course_mirrors {hook : Hook K A α} (hq : hook.Asks (Request.InSight s))
    (board : Blackboard) (h : World.Alongside s w₀ v₀ w v) :
    (hook.course board w).Unseen F s w₀ v₀ (hook.course board v) := by
  induction hook generalizing board w v with
  | done a => exact Course.mirrors_done h
  | ask r next ih =>
    refine (Request.course_mirrors hq.inv.1 board h).bind (fun reply w hN => ?_)
      fun reply w v h => ih reply.1 (hq.inv.2 reply.1) reply.2 h
    exact (Hook.course_spans World.shifts_spans (Hook.asks_of_forall (fun _ => trivial) _)
      reply.2).lost hN

namespace Tick

variable {tick : Tick K A} {task : RunnableTask K A} {index : Nat}

theorem beginCourse_mirrors (hq : task.Asks (Request.InSight s)) (board : Blackboard)
    (h : World.Alongside s w₀ v₀ w v) :
    (tick.beginCourse index task board w).Unseen F s w₀ v₀
      (tick.beginCourse index task board v) := by
  rw [beginCourse, beginCourse]
  cases hstart : task.start with
  | none => exact Course.mirrors_done h
  | some hook => exact (Hook.course_mirrors (hq.start hstart _) board (h.log _)).map _

theorem endCourse_mirrors (hq : task.Asks (Request.InSight s)) (status : Status)
    (board : Blackboard) (h : World.Alongside s w₀ v₀ w v) :
    (tick.endCourse index task status board w).Unseen F s w₀ v₀
      (tick.endCourse index task status board v) := by
  rw [endCourse, endCourse]
  cases hfinish : task.finish with
  | none => exact Course.mirrors_done h
  | some hook => exact (Hook.course_mirrors (hq.finish hfinish _ _) board (h.log _)).map _

theorem runCourse_mirrors (hq : task.Asks (Request.InSight s)) (board : Blackboard)
    (h : World.Alongside s w₀ v₀ w v) :
    (tick.runCourse index task board w).Unseen F s w₀ v₀
      (tick.runCourse index task board v) := by
  refine (Hook.course_mirrors (hq.run _) board h).bind (fun answer w hN => ?_)
    fun answer w v h => ?_
  · have hran := hN.log (.ran tick.id tick.agent index task.name answer.1)
    by_cases hdone : (TaskResult.status answer.1).isDone = true
    · simp only [hdone, if_true]
      exact (World.shifts_spans.map (tick.endCourse_spans World.shifts_spans
        (task.asks_of_forall fun _ => trivial) _ answer.2) _).lost hran
    · simp only [hdone]
      exact hran
  · have hran := h.log (.ran tick.id tick.agent index task.name answer.1)
    by_cases hdone : (TaskResult.status answer.1).isDone = true
    · simp only [hdone, if_true]
      exact (endCourse_mirrors hq _ answer.2 hran).map _
    · simp only [hdone]
      exact Course.mirrors_done hran

theorem visitCourse_mirrors (hq : task.Asks (Request.InSight s)) (resumed : Bool)
    (board : Blackboard) (h : World.Alongside s w₀ v₀ w v) :
    (tick.visitCourse index task resumed board w).Unseen F s w₀ v₀
      (tick.visitCourse index task resumed board v) := by
  have hbegin : (if resumed then .done board w
      else tick.beginCourse index task board w).Unseen F s w₀ v₀
        (if resumed then .done board v else tick.beginCourse index task board v) := by
    cases resumed with
    | true => exact Course.mirrors_done h
    | false => exact beginCourse_mirrors hq board h
  refine hbegin.bind (fun board w hN => ?_) fun board w v h => runCourse_mirrors hq board h
  exact (tick.runCourse_spans World.shifts_spans (task.asks_of_forall fun _ => trivial)
    board).lost hN

omit [DecidableEq K] in
/-- A query of a registry in sight finds the same. -/
theorem find_eq (h : World.Alongside s w₀ v₀ w v) {q : Query} (board : Blackboard)
    (hseen : ∀ name r, q.board = .shared name → tick.tree.registry = some r → s.registries r) :
    q.find board (tick.tree.registry.map w.registry) =
      q.find board (tick.tree.registry.map v.registry) := by
  obtain ⟨ref, key, predicate⟩ := q
  cases ref with
  | own => rfl
  | shared name =>
    cases hregistry : tick.tree.registry with
    | none => rfl
    | some r => rw [Option.map_some, Option.map_some, h.registries (hseen name r rfl hregistry)]

theorem dispatchCourse_mirrors (hid : s.trees tick.id) {i : Instruction Nat K A}
    (hget : tick.tree.program.get? index = some i)
    (hq : ∀ {task}, i.op = .task task → task.Asks (Request.InSight s))
    (hseen : ∀ {r}, tick.tree.ReadsAt index r → ¬ s.registries r →
      World.Logs (F.Notices s) w₀ w)
    (resumed : Bool) (state : AgentState) (h : World.Alongside s w₀ v₀ w v) :
    (tick.dispatchCourse index resumed i state w).Unseen F s w₀ v₀
      (tick.dispatchCourse index resumed i state v) := by
  obtain ⟨op, yes, no⟩ := i
  cases op with
  | task task => exact (visitCourse_mirrors (hq rfl) resumed state.board h).map _
  | subTree link =>
    by_cases hlink : s.trees link.tree
    · refine .inr (.inr ⟨v, _, rfl, h, fun result w₁ v₁ h₁ => ?_⟩)
      cases result with
      | ok status => exact Course.mirrors_done h₁
      | error e => exact Course.mirrors_done (h₁.log _)
    · exact .inr (.inl hlink)
  | query q =>
    by_cases hout : ∃ name r, q.board = .shared name ∧ tick.tree.registry = some r ∧
        ¬ s.registries r
    · obtain ⟨name, r, hboard, hregistry, hr⟩ := hout
      have hstretch : (tick.dispatchCourse index resumed ⟨.query q, yes, no⟩ state w).Keeps
          World.Shifts w :=
        tick.dispatchCourse_spans World.shifts_spans
          (fun {task} _ => task.asks_of_forall fun _ => trivial) resumed state
      exact (hstretch.lost (hseen ⟨_, q, name, hget, rfl, hboard, hregistry⟩ hr)).mirrors
    · have hsight : ∀ name r, q.board = .shared name → tick.tree.registry = some r →
          s.registries r := fun name r hboard hregistry =>
        Classical.byContradiction fun hr => hout ⟨name, r, hboard, hregistry, hr⟩
      simp only [dispatchCourse, dispatch, find_eq h state.board hsight]
      cases q.find state.board (tick.tree.registry.map v.registry) with
      | error e => exact Course.mirrors_done (h.log _)
      | ok found =>
        cases found with
        | none => exact Course.mirrors_done (h.log _)
        | some passed => cases passed <;> exact Course.mirrors_done h
  | randomBranch table =>
    cases table with
    | nil => exact Course.mirrors_done h
    | cons first rest =>
      simp only [dispatchCourse, dispatch, h.trees hid]
      exact Course.mirrors_done ((h.modifyTree hid _).log _)
  | repeatStart | repeatCounter | hangingSucceed | hangingFail => exact Course.mirrors_done h

theorem advanceCourse_mirrors (htree : tick.tree = F.tree tick.id) (hid : s.trees tick.id)
    (hq : tick.Asks (Request.InSight s)) (f : Frame) (h : World.Alongside s w₀ v₀ w v) :
    (tick.advanceCourse f w).Unseen F s w₀ v₀ (tick.advanceCourse f v) := by
  rw [advanceCourse, advanceCourse]
  cases hget : tick.tree.program.get? f.cursor with
  | none => exact Course.mirrors_done h
  | some i =>
    cases tick.exhausted f with
    | some limit => exact Course.mirrors_done (h.log _)
    | none =>
      refine (dispatchCourse_mirrors hid hget (hq hget) (fun hreads hr => ?_) f.resumed f.state
        (h.log _)).map _
      exact .now h.since ⟨_, htree ▸ hreads, hr⟩

/-- What a tick comes to is not changed by what is out of sight. -/
theorem performCourse_mirrors (htree : tick.tree = F.tree tick.id) (hid : s.trees tick.id)
    (hq : tick.Asks (Request.InSight s)) (bound : Nat) (state : AgentState)
    (h : World.Alongside s w₀ v₀ w v) :
    (tick.performCourse bound state w).Unseen F s w₀ v₀ (tick.performCourse bound state v) := by
  have hwalk : ∀ n f w v, World.Alongside s w₀ v₀ w v →
      (tick.walkCourse n f w).Unseen F s w₀ v₀ (tick.walkCourse n f v) := by
    intro n
    induction n with
    | zero => exact fun f w v _ => trivial
    | succ n ih =>
      intro f w v h
      refine (advanceCourse_mirrors htree hid hq f h).bind (fun p w hN => ?_) fun p w v h => ?_
      · cases p with
        | underway f' =>
          exact (walkCourse_spans World.shifts_spans
            (fun {_ _ task} _ _ => task.asks_of_forall fun _ => trivial) n f').lost hN
        | ended result state' => exact hN
      · cases p with
        | underway f' => exact ih f' w v h
        | ended result state' => exact Course.mirrors_done h
  rw [performCourse, performCourse]
  split
  · exact Course.mirrors_done h
  · exact hwalk bound _ w v h

end Tick

/-! ## Operations -/

namespace Forest

variable {n : Nat} {t : TreeId} {a : K}

omit [DecidableEq K] in
theorem Asks.tick {p : Request K A → Prop} (hF : F.Asks p) (t : TreeId) (a : K) :
    (F.tickOf t a).Asks p := by
  intro index i task hget hop
  obtain ⟨op, yes, no⟩ := i
  cases hop
  exact hF t index task yes no hget

theorem runCourse_mirrors (hF : F.Asks (Request.InSight s)) (ht : s.trees t)
    (h : World.Alongside s w₀ v₀ w v) :
    (F.runCourse n t a w).Unseen F s w₀ v₀ (F.runCourse n t a v) := by
  rw [runCourse, runCourse, h.trees ht]
  split
  · exact Course.mirrors_done (h.log _)
  · split
    · exact Course.mirrors_done ((h.enter ht a).leave ht a _)
    · rw [h.state ht]
      refine (Tick.performCourse_mirrors rfl ht (hF.tick t a) n _
        ((h.enter ht a).checkOut ht a)).bind (fun answer w hN => ?_) fun answer w v h => ?_
      · split
        · exact hN.later (World.shifts_leave w t a _).journal
        · have hin : World.Shifts w ((w.checkIn t a answer.2).leave t a answer.1) :=
            (World.shifts_checkIn w t a answer.2).trans (World.shifts_leave _ t a answer.1)
          exact hN.later hin.journal
      · rw [h.trees ht]
        split
        · exact Course.mirrors_done (h.leave ht a _)
        · exact Course.mirrors_done ((h.checkIn ht a _).leave ht a _)

theorem cancelCourse_mirrors (hF : F.Asks (Request.InSight s)) (state : AgentState)
    (h : World.Alongside s w₀ v₀ w v) :
    (F.cancelCourse t a state w).Unseen F s w₀ v₀ (F.cancelCourse t a state v) := by
  rw [cancelCourse, cancelCourse]
  split
  · rename_i task hawaited
    obtain ⟨i, hget, hop⟩ := Tree.awaited_inv hawaited
    exact Tick.endCourse_mirrors (hF.tick t a hget hop) _ _ h
  · rename_i link _
    by_cases hlink : s.trees link.tree
    · exact .inr (.inr ⟨v, _, rfl, h, fun _ _ _ h₁ => Course.mirrors_done h₁⟩)
    · exact .inr (.inl hlink)
  · exact Course.mirrors_done h

theorem abortCourse_mirrors (hF : F.Asks (Request.InSight s)) (ht : s.trees t)
    (h : World.Alongside s w₀ v₀ w v) :
    (F.abortCourse t a w).Unseen F s w₀ v₀ (F.abortCourse t a v) := by
  rw [abortCourse, abortCourse, h.trees ht, h.agent? ht]
  split
  · exact Course.mirrors_done (h.log _)
  · split
    · exact Course.mirrors_done h
    · refine (cancelCourse_mirrors hF _ (h.checkOut ht a)).bind (fun board w hN => ?_)
        fun board w v h => ?_
      · split
        · exact hN
        · exact hN.later (World.shifts_checkIn w t a _).journal
      · rw [h.trees ht]
        split
        · exact Course.mirrors_done h
        · exact Course.mirrors_done (h.checkIn ht a _)

theorem removeCourse_mirrors (ht : s.trees t) (h : World.Alongside s w₀ v₀ w v) :
    (F.removeCourse t a w).Unseen F s w₀ v₀ (F.removeCourse t a v) := by
  rw [removeCourse, removeCourse, h.trees ht, h.agent? ht]
  split
  · exact Course.mirrors_done h
  · split
    · exact Course.mirrors_done h
    · split
      · rename_i link _
        by_cases hlink : s.trees link.tree
        · exact .inr (.inr ⟨_, _, rfl, h.checkOut ht a, fun _ _ _ h₁ => Course.mirrors_done h₁⟩)
        · exact .inr (.inl hlink)
      · exact Course.mirrors_done (h.checkOut ht a)

theorem update_alongside (ht : s.trees t) (edit : Edit) (h : World.Alongside s w₀ v₀ w v) :
    (update t a edit w).1 = (update t a edit v).1 ∧
      World.Alongside s w₀ v₀ (update t a edit w).2 (update t a edit v).2 := by
  rw [update, update, h.trees ht, h.agent? ht]
  split
  · exact ⟨rfl, h⟩
  · simp only
    split
    · exact ⟨rfl, (h.checkIn ht a _).modifyTree ht fun x => { x with poisoned := true }⟩
    · exact ⟨rfl, h.checkIn ht a _⟩

/-- What an operation on a tree in sight comes to is not changed by what is out of sight. -/
theorem course_mirrors (hF : F.Asks (Request.InSight s)) (n : Nat) {c : Call K}
    (hc : s.trees c.tree) (h : World.Alongside s w₀ v₀ w v) :
    (F.course n c w).Unseen F s w₀ v₀ (F.course n c v) := by
  cases c with
  | run t a => exact runCourse_mirrors hF hc h
  | abort t a => exact abortCourse_mirrors hF hc h
  | remove t a => exact removeCourse_mirrors hc h
  | update t a edit =>
    obtain ⟨hreply, hafter⟩ := update_alongside (t := t) (a := a) hc edit h
    exact .inr ⟨_, by rw [course, hreply], hafter⟩

end Forest

/-! ## Errands -/

omit [DecidableEq K] in
/-- A course that goes by errands and is mirrored by another, as these errands are: the other comes
to the same. -/
theorem Course.Goes.mirrored {does : Errand K A → Prop} {R : World K A → World K A → Prop}
    {N : World K A → Prop} {allowed : Call K → Prop} {course course' : Course K A α}
    {es : List (Errand K A)} {a : α} (h : course.Goes does es a w)
    (hmirrors : course.Mirrors R N allowed course') (hN : ∀ e ∈ es, ¬ N e.before) (hlast : ¬ N w)
    (hes : ∀ e ∈ es, allowed e.call ∧ ∀ v, R e.before v →
      ∃ v' inner, does (.mk e.call e.reply v v' inner) ∧ R e.after v') :
    ∃ es' v', course'.Goes does es' a v' ∧ R w v' := by
  induction h generalizing course' with
  | done =>
    rcases hmirrors with hnoticed | ⟨v, rfl, hR⟩
    · exact absurd hnoticed hlast
    · exact ⟨[], v, .done, hR⟩
  | call hdoes _ ih =>
    obtain ⟨hfirst, hN⟩ := List.forall_mem_cons.1 hN
    obtain ⟨⟨hallowed, hhead⟩, hes⟩ := List.forall_mem_cons.1 hes
    rcases hmirrors with hnoticed | hnot | ⟨v, next', rfl, hR, hnext⟩
    · exact absurd hnoticed hfirst
    · exact absurd hallowed hnot
    · obtain ⟨v₁, inner', hdoes', hR₁⟩ := hhead v hR
      obtain ⟨es', v', hgoes', hR'⟩ := ih (hnext _ _ _ hR₁) hN hlast hes
      exact ⟨_, v', .call hdoes' hgoes', hR'⟩

/-- An errand that keeps to what is in sight is done the same in a world that differs only out of
sight, and leaves what is out of sight alone. -/
theorem Forest.Does.unseen {n : Nat} {e : Errand K A} (hF : F.Asks (Request.InSight s))
    (h : F.Does n e) (hcalls : ∀ x, e.Within x → s.trees x.call.tree)
    (hlogs : ¬ World.Logs (F.Notices s) e.before e.after)
    (hv : World.Alongside s e.before v e.before v) :
    ∃ v' inner, F.Does n (.mk e.call e.reply v v' inner) ∧
      World.Alongside s e.before v e.after v' := by
  induction n generalizing e v with
  | zero => exact h.elim
  | succ n ih =>
    obtain ⟨hbetween, -⟩ := h.ordered
    obtain ⟨m, hm, hgoes⟩ := h.goes
    obtain rfl := Nat.succ.inj hm
    have hmirrors := course_mirrors hF n (hcalls e (.self e)) hv
    obtain ⟨es', v', hgoes', hv'⟩ := hgoes.mirrored hmirrors
      (fun d hd hN => by
        have hrest : World.Shifts d.before e.after :=
          (hgoes.all d hd).shifts.trans (hbetween d hd).2
        exact hlogs (hN.later hrest.journal))
      hlogs fun d hd => by
        refine ⟨hcalls d (.of_mem hd (.self d)), fun u hu => ?_⟩
        have hquiet : ¬ World.Logs (F.Notices s) d.before d.after := fun hlogged =>
          hlogs ((hlogged.earlier (hbetween d hd).1.journal).later (hbetween d hd).2.journal)
        obtain ⟨u', inner, hdoes, hu'⟩ := ih (hgoes.all d hd)
          (fun x hx => hcalls x (.of_mem hd hx)) hquiet hu.restart
        exact ⟨u', inner, hdoes, hu.trans hu'⟩
    exact ⟨v', es', hgoes', hv'⟩

end TickTree

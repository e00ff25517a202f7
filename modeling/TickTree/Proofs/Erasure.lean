import TickTree.Proofs.Congruence

/-!
# The journal is never read

Operations write to the journal of a world and never read it. A filter `see`
says which events count. Two worlds are the same through the filter when they
agree in everything but the journal, and their journals agree in the events that
count (`World.Same`). From worlds that are the same, every operation comes to
the same answer and to worlds that are the same (`Forest.serve_oblivious`).
-/

namespace TickTree

/-! ## Worlds through a filter -/

section

variable {K A : Type}

/-- The world with only those events in its journal that a filter lets through, as
the filter shows them. -/
def World.seen (see : Event K → Option (Event K)) (w : World K A) : World K A :=
  { w with journal := w.journal.filterMap see }

/-- Two worlds that a filter cannot tell apart. -/
def World.Same (see : Event K → Option (Event K)) (w v : World K A) : Prop :=
  w.seen see = v.seen see

namespace World

variable {see : Event K → Option (Event K)} {w v : World K A}

theorem Same.symm (h : Same see w v) : Same see v w := Eq.symm h

theorem Same.trees (h : Same see w v) : w.trees = v.trees := (congrArg World.trees h :)

theorem Same.registries (h : Same see w v) : w.registries = v.registries :=
  (congrArg World.registries h :)

theorem Same.ambient (h : Same see w v) : w.ambient = v.ambient := (congrArg World.ambient h :)

theorem Same.journal (h : Same see w v) : w.journal.filterMap see = v.journal.filterMap see :=
  (congrArg World.journal h :)

theorem Same.of_eq (htrees : w.trees = v.trees) (hregistries : w.registries = v.registries)
    (hambient : w.ambient = v.ambient)
    (hjournal : w.journal.filterMap see = v.journal.filterMap see) : Same see w v := by
  simp only [Same, seen, htrees, hregistries, hambient, hjournal]

theorem Same.tree (h : Same see w v) (t : TreeId) : w.tree t = v.tree t := by
  rw [World.tree, World.tree, h.trees]

theorem Same.registry (h : Same see w v) (r : RegistryId) : w.registry r = v.registry r := by
  rw [World.registry, World.registry, h.registries]

theorem Same.agent? [DecidableEq K] (h : Same see w v) (t : TreeId) (a : K) :
    w.agent? t a = v.agent? t a := by
  rw [World.agent?, World.agent?, h.tree]

theorem Same.view [DecidableEq K] (h : Same see w v) (t : TreeId) (a : K) :
    w.view t a = v.view t a := by
  rw [World.view, World.view, h.agent?, h.tree]

theorem Same.log (h : Same see w v) (e : Event K) : Same see (w.log e) (v.log e) := by
  refine .of_eq h.trees h.registries h.ambient ?_
  simp only [World.log, List.filterMap_cons, h.journal]

theorem Same.log_unseen (h : Same see w v) {e : Event K} (he : see e = none) :
    Same see (w.log e) v := by
  refine .of_eq h.trees h.registries h.ambient ?_
  simp only [World.log, List.filterMap_cons, he, h.journal]

theorem Same.modifyTree (h : Same see w v) (t : TreeId) (f : TreeState K → TreeState K) :
    Same see (w.modifyTree t f) (v.modifyTree t f) := by
  refine .of_eq ?_ h.registries h.ambient h.journal
  simp only [World.modifyTree, h.trees, h.tree]

theorem Same.setRegistry (h : Same see w v) (id : RegistryId) (r : Registry) :
    Same see (w.setRegistry id r) (v.setRegistry id r) := by
  refine .of_eq h.trees ?_ h.ambient h.journal
  simp only [World.setRegistry, h.registries]

theorem Same.setAmbient (h : Same see w v) (value : A) :
    Same see { w with ambient := value } { v with ambient := value } :=
  .of_eq h.trees h.registries rfl h.journal

theorem Same.checkOut [DecidableEq K] (h : Same see w v) (t : TreeId) (a : K) :
    Same see (w.checkOut t a) (v.checkOut t a) := h.modifyTree t _

theorem Same.checkIn [DecidableEq K] (h : Same see w v) (t : TreeId) (a : K) (s : AgentState) :
    Same see (w.checkIn t a s) (v.checkIn t a s) := h.modifyTree t _

end World

end

/-! ## Oblivious computations -/

section

variable {K A : Type}

/-- A computation that comes to the same from worlds that a filter cannot tell apart. -/
def Oblivious {α : Type} (see : Event K → Option (Event K))
    (f : World K A → Outcome (World K A) α) : Prop :=
  ∀ w v, World.Same see w v → Outcome.Alike (World.Same see) (f w) (f v)

/-- A handler whose answers do not depend on what a filter hides. -/
def Handler.Oblivious (see : Event K → Option (Event K)) (handler : Handler K A) : Prop :=
  ∀ c, TickTree.Oblivious see (handler c)

variable [DecidableEq K] {see : Event K → Option (Event K)} {handler : Handler K A}

/-- Hooks cannot tell apart what a filter cannot. -/
theorem World.same_congruence (see : Event K → Option (Event K)) :
    World.Congruence (World.Same (A := A) see) where
  ambient := Same.ambient
  registry := Same.registry
  view := Same.view
  setAmbient := Same.setAmbient
  setRegistry := Same.setRegistry
  log := Same.log

namespace Tick

variable (tick : Tick K A)

theorem visit_oblivious (hh : handler.Oblivious see) (index : Nat) (task : RunnableTask K A)
    (resumed : Bool) (board : Blackboard) :
    Oblivious see (tick.visit handler index task resumed board) :=
  tick.visit_respects (World.same_congruence see) hh index task resumed board

theorem dispatch_oblivious (hh : handler.Oblivious see) (index : Nat) (resumed : Bool)
    (i : Instruction Nat K A) (s : AgentState) :
    Oblivious see (tick.dispatch handler index resumed i s) := by
  intro w v h
  obtain ⟨op, yes, no⟩ := i
  cases op with
  | task task =>
    exact (tick.visit_oblivious hh index task resumed s.board w v h).bind fun _ _ _ h' => .done h'
  | query q =>
    have hregistry : tick.tree.registry.map w.registry = tick.tree.registry.map v.registry :=
      Option.map_congr fun r _ => h.registry r
    simp only [dispatch, hregistry]
    cases q.find s.board (tick.tree.registry.map v.registry) with
    | error e => exact .done (h.log _)
    | ok found =>
      cases found with
      | none => exact .done (h.log _)
      | some b => cases b <;> exact .done h
  | subTree link =>
    refine (hh (.run link.tree tick.agent) w v h).bind fun result w' v' h' => ?_
    cases result with
    | ok status => exact .done h'
    | error e => exact .done (h'.log _)
  | randomBranch table =>
    cases table with
    | nil => exact .done h
    | cons first rest =>
      simp only [dispatch, h.tree]
      exact .done ((h.modifyTree _ _).log _)
  | repeatStart counter => exact .done h
  | repeatCounter goal body => exact .done h
  | hangingSucceed => exact .done h
  | hangingFail => exact .done h

theorem advance_oblivious (hh : handler.Oblivious see) (f : Frame) :
    Oblivious see (tick.advance handler f) := by
  intro w v h
  rw [advance, advance]
  cases tick.tree.program.get? f.cursor with
  | none => exact .done h
  | some i =>
    cases tick.exhausted f with
    | none => exact (tick.dispatch_oblivious hh _ _ i _ _ _ (h.log _)).map _
    | some limit => exact .done (h.log _)

theorem walk_oblivious (hh : handler.Oblivious see) (n : Nat) (f : Frame) :
    Oblivious see (tick.walk handler n f) := by
  induction n generalizing f with
  | zero => exact fun w v h => .done h
  | succ n ih =>
    intro w v h
    simp only [walk]
    cases hw : tick.advance handler f w with
    | cutOff w₁ =>
      have hadv := tick.advance_oblivious hh f w v h
      rw [hw] at hadv
      obtain ⟨v₁, hv⟩ := hadv.cutOff_inv
      rw [hv] at hadv ⊢
      cases hadv with
      | cutOff h₁ => exact .cutOff h₁
    | done p w₁ =>
      have hadv := tick.advance_oblivious hh f w v h
      rw [hw] at hadv
      obtain ⟨v₁, hv, h₁⟩ := hadv.done_inv
      rw [hv]
      cases p with
      | underway f' => exact ih f' w₁ v₁ h₁
      | ended r s => exact .done h₁

theorem perform_oblivious (hh : handler.Oblivious see) (bound : Nat) (s : AgentState) :
    Oblivious see (tick.perform handler bound s) := by
  intro w v h
  rw [perform, perform]
  split
  · exact .done h
  · have hwalk := tick.walk_oblivious hh bound (.begin s) w v h
    generalize tick.walk handler bound (.begin s) w = o at hwalk
    generalize tick.walk handler bound (.begin s) v = p at hwalk
    cases hwalk with
    | cutOff h' => exact .cutOff h'
    | @done progress _ _ h' =>
      cases progress with
      | underway f => exact .cutOff h'
      | ended r s' => exact .done h'

end Tick

/-! ## Operations -/

namespace Forest

variable (F : Forest K A)

omit [DecidableEq K] in
theorem leave_oblivious (t : TreeId) (a : K) (result : Except RunError Status) :
    Oblivious see (leave (A := A) t a result) :=
  fun _ _ h => .done ((h.modifyTree t _).log _)

theorem run_oblivious (hh : handler.Oblivious see) (bound : Nat) (t : TreeId) (a : K) :
    Oblivious see (F.run handler bound t a) := by
  intro w v h
  simp only [run, h.tree t]
  split
  · exact .done (h.log _)
  · have hin := (h.modifyTree t fun s => { s with running := true }).log (.entered t a)
    simp only [hin.tree t, hin.agent? t a]
    split
    · exact leave_oblivious t a _ _ _ hin
    · refine (Tick.perform_oblivious _ hh bound _ _ _ (hin.checkOut t a)).bind
        fun answer w' v' h' => ?_
      simp only [h'.tree t]
      split
      · exact leave_oblivious t a _ _ _ h'
      · exact leave_oblivious t a _ _ _ (h'.checkIn t a _)

theorem cancel_oblivious (hh : handler.Oblivious see) (t : TreeId) (a : K) (s : AgentState) :
    Oblivious see (F.cancel handler t a s) := by
  intro w v h
  rw [cancel, cancel]
  split
  · exact Tick.endVisit_respects _ (World.same_congruence see) hh _ _ _ _ w v h
  · exact (hh _ w v h).map _
  · exact .done h

theorem abort_oblivious (hh : handler.Oblivious see) (t : TreeId) (a : K) :
    Oblivious see (F.abort handler t a) := by
  intro w v h
  simp only [abort, h.tree t, h.agent? t a]
  split
  · exact .done (h.log _)
  · cases v.agent? t a with
    | none => exact .done h
    | some s =>
      refine (F.cancel_oblivious hh t a s _ _ (h.checkOut t a)).bind fun board w' v' h' => ?_
      simp only [h'.tree t]
      split
      · exact .done h'
      · exact .done (h'.checkIn t a _)

theorem remove_oblivious (hh : handler.Oblivious see) (t : TreeId) (a : K) :
    Oblivious see (F.remove handler t a) := by
  intro w v h
  simp only [remove, h.tree t, h.agent? t a]
  split
  · exact .done h
  · cases v.agent? t a with
    | none => exact .done h
    | some s =>
      simp only
      split
      · exact (hh _ _ _ (h.checkOut t a)).map _
      · exact .done (h.checkOut t a)

theorem update_oblivious (t : TreeId) (a : K) (edit : Edit) :
    Oblivious see (fun w : World K A =>
      Outcome.done (update t a edit w).1 (update t a edit w).2) := by
  intro w v h
  simp only [update, h.tree t, h.agent? t a]
  split
  · exact .done h
  · cases edit ((v.agent? t a).getD {}).board with
    | none => exact .done ((h.checkIn t a _).modifyTree t _)
    | some board => exact .done (h.checkIn t a _)

/-- Answers depend on nothing that a filter of the journal hides. -/
theorem serve_oblivious (see : Event K → Option (Event K)) (bound : Nat) :
    (F.serve bound).Oblivious see := by
  induction bound with
  | zero => exact fun c w v h => .cutOff h
  | succ bound ih =>
    intro c
    cases c with
    | run t a => exact F.run_oblivious ih bound t a
    | abort t a => exact F.abort_oblivious ih t a
    | remove t a => exact F.remove_oblivious ih t a
    | update t a edit => exact update_oblivious t a edit

end Forest

end

end TickTree

import TickTree.Proofs.Soundness

/-!
# One tick at a time

A tree is marked as ticking exactly while a tick of it that was not refused is under way. The
journal tells which ticks are: those entered and not yet left (`underway`). They are the runs
among the operations that are under way, so the journal is a record of the call stack
(`World.GuardedAmid`).

Whatever a hook does, this holds between all calls: a tick by itself neither enters nor leaves
trees, and sees the marks as they are (`World.GuardedAmid.steps`). Each operation leaves the ticks
under way as it has found them (`Forest.course_along`). So a tree ticks one agent at a time, a
run of a ticking tree is refused and changes nothing, and while no operation is under way no tree
is marked (`Forest.one_tick_at_a_time`).

While a tree ticks an agent it does not hold a suspended state of it. The state is checked out,
and what an edit or an abort puts in its place is not suspended. So an abort or a removal of that
agent finds nothing to cancel there, and calls no hook.
-/

namespace TickTree

variable {K A α β : Type}

/-! ## Ticks under way -/

/-- The tree and the agent of a run. -/
def Call.tick? : Call K → Option (TreeId × K)
  | .run t a => some (t, a)
  | _ => none

/-- The ticks that a journal has seen begin and not end, newest first, as the journal is. -/
def underway : List (Event K) → List (TreeId × K)
  | [] => []
  | .entered t a :: earlier => (t, a) :: underway earlier
  | .left .. :: earlier => (underway earlier).tail
  | _ :: earlier => underway earlier

/-- A tick of a tree is under way. -/
def Busy (t : TreeId) (journal : List (Event K)) : Prop := ∃ a, (t, a) ∈ underway journal

/-- An event agrees with the ticks under way before it: trees are entered when they are not busy
and refuse when they are, the tick entered last is left first, and whoever looks at a tree sees
whether it is busy. -/
def Event.Truthful (earlier : List (Event K)) : Event K → Prop
  | .entered t _ => ¬ Busy t earlier
  | .refused t _ => Busy t earlier
  | .left t a _ => (underway earlier).head? = some (t, a)
  | .looked t _ running => running = true ↔ Busy t earlier
  | _ => True

/-- All events of a journal agree with the ticks under way before them. -/
def Truthful : List (Event K) → Prop
  | [] => True
  | e :: earlier => e.Truthful earlier ∧ Truthful earlier

theorem underway_inner {e : Event K} (he : e.isInner = true) (earlier : List (Event K)) :
    underway (e :: earlier) = underway earlier := by
  cases e <;> first | rfl | cases he

theorem Event.truthful_inner {e : Event K} (he : e.isInner = true) (earlier : List (Event K)) :
    e.Truthful earlier := by
  cases e <;> trivial

/-- No tree has two ticks under way. -/
theorem Truthful.exclusive {journal : List (Event K)} (h : Truthful journal) :
    ((underway journal).map Prod.fst).Nodup := by
  induction journal with
  | nil => exact List.nodup_nil
  | cons e earlier ih =>
    have hearlier := ih h.2
    cases e with
    | entered t a =>
      refine List.nodup_cons.2 ⟨fun hmem => ?_, hearlier⟩
      obtain ⟨⟨u, b⟩, hub, rfl⟩ := List.mem_map.1 hmem
      exact h.1 ⟨b, hub⟩
    | left =>
      simp only [underway, List.map_tail]
      exact hearlier.tail
    | _ => exact hearlier

/-- The marks of the trees tell which of them are busy, and so does all that was seen of them. -/
structure World.Guarded (w : World K A) : Prop where
  truthful : Truthful w.journal
  running : ∀ t, (w.tree t).running = true ↔ Busy t w.journal

variable {t : TreeId} {a : K} {calls : List (Call K)} {w v : World K A}

/-- Amid these calls, innermost first, the ticks under way are the runs among them. -/
structure World.Tracked (calls : List (Call K)) (w : World K A) : Prop extends w.Guarded where
  underway : underway w.journal = calls.filterMap Call.tick?

namespace World

namespace Tracked

theorem mem_underway (h : w.Tracked calls) :
    (t, a) ∈ TickTree.underway w.journal ↔ .run t a ∈ calls := by
  rw [h.underway, List.mem_filterMap]
  constructor
  · rintro ⟨c, hmem, hc⟩
    cases c <;> cases hc
    exact hmem
  · exact fun hmem => ⟨_, hmem, rfl⟩

theorem running_iff (h : w.Tracked calls) :
    (w.tree t).running = true ↔ ∃ a, .run t a ∈ calls :=
  (h.running t).trans (exists_congr fun _ => h.mem_underway)

theorem exclusive (h : w.Tracked calls) : ((calls.filterMap Call.tick?).map Prod.fst).Nodup :=
  h.underway ▸ h.truthful.exclusive

theorem of_trees (h : w.Tracked calls) (htrees : v.trees = w.trees)
    (hjournal : v.journal = w.journal) : v.Tracked calls where
  truthful := hjournal ▸ h.truthful
  running t := by
    rw [tree, htrees, hjournal]
    exact h.running t
  underway := hjournal ▸ h.underway

/-- A change to a tree that does not concern its mark. -/
theorem modifyTree (h : w.Tracked calls) (t : TreeId) {f : TreeState K → TreeState K}
    (hrunning : ∀ s, (f s).running = s.running) : (w.modifyTree t f).Tracked calls where
  truthful := h.truthful
  running u := by
    rw [project_modifyTree w t (p := (·.running)) hrunning u]
    exact h.running u
  underway := h.underway

/-- An event that begins and ends nothing. -/
theorem log (h : w.Tracked calls) {e : Event K} (he : e.Truthful w.journal)
    (hunderway : TickTree.underway (e :: w.journal) = TickTree.underway w.journal) :
    (w.log e).Tracked calls where
  truthful := ⟨he, h.truthful⟩
  running t := by
    refine (h.running t).trans ?_
    rw [Busy, Busy]
    exact hunderway ▸ Iff.rfl
  underway := hunderway.trans h.underway

theorem enter (h : w.Tracked calls) (a : K) (hidle : (w.tree t).running = false) :
    (w.enter t a).Tracked (.run t a :: calls) where
  truthful := ⟨fun hbusy => by simp [(h.running t).2 hbusy] at hidle, h.truthful⟩
  running u := by
    have hopen : TickTree.underway (w.enter t a).journal =
      (t, a) :: TickTree.underway w.journal := rfl
    rw [Busy, hopen]
    by_cases htu : t = u
    · subst htu
      rw [tree_enter]
      exact ⟨fun _ => ⟨a, .head _⟩, fun _ => rfl⟩
    · rw [tree_enter_of_ne w a htu, h.running u, Busy]
      simp [Ne.symm htu]
  underway := congrArg ((t, a) :: ·) h.underway

theorem leave (h : w.Tracked (.run t a :: calls)) (r : Except RunError Status) :
    (w.leave t a r).Tracked calls := by
  have hopen : TickTree.underway w.journal = (t, a) :: calls.filterMap Call.tick? := h.underway
  have hrest : TickTree.underway (w.leave t a r).journal = calls.filterMap Call.tick? := by
    change (TickTree.underway w.journal).tail = _
    rw [hopen, List.tail_cons]
  refine ⟨⟨⟨?_, h.truthful⟩, fun u => ?_⟩, hrest⟩
  · change (TickTree.underway w.journal).head? = _
    rw [hopen, List.head?_cons]
  · rw [Busy, hrest]
    by_cases htu : t = u
    · subst htu
      rw [tree_leave]
      refine ⟨nofun, fun ⟨b, hb⟩ => ?_⟩
      exact absurd (List.mem_map_of_mem hb) (List.nodup_cons.1 h.exclusive).1
    · rw [tree_leave_of_ne w a r htu, h.running u, Busy, hopen]
      simp [Ne.symm htu]

end Tracked

end World

variable [DecidableEq K]

/-- None of the ticks under way amid these calls has left a suspended state of its agent in its
tree. -/
structure World.GuardedAmid (calls : List (Call K)) (w : World K A) : Prop
    extends w.Tracked calls where
  unpaused : ∀ {t a s}, .run t a ∈ calls → w.agent? t a = some s → s.paused = false

namespace World.GuardedAmid

theorem of_trees (h : w.GuardedAmid calls) (htrees : v.trees = w.trees)
    (hjournal : v.journal = w.journal) : v.GuardedAmid calls where
  toTracked := h.toTracked.of_trees htrees hjournal
  unpaused hrun hs := h.unpaused hrun (by rwa [agent?, tree, htrees] at hs)

/-- A change to a tree that concerns neither its mark nor its agents. -/
theorem modifyTree (h : w.GuardedAmid calls) (t : TreeId) {f : TreeState K → TreeState K}
    (hagents : ∀ s, (f s).agents = s.agents) (hrunning : ∀ s, (f s).running = s.running) :
    (w.modifyTree t f).GuardedAmid calls where
  toTracked := h.toTracked.modifyTree t hrunning
  unpaused hrun hs := h.unpaused hrun (by rwa [agent?_modifyTree w t hagents] at hs)

theorem log (h : w.GuardedAmid calls) {e : Event K} (he : e.Truthful w.journal)
    (hunderway : TickTree.underway (e :: w.journal) = TickTree.underway w.journal) :
    (w.log e).GuardedAmid calls := ⟨h.toTracked.log he hunderway, h.unpaused⟩

/-- What a tick does by itself changes nothing about the ticks under way. -/
theorem steps (h : w.GuardedAmid calls) (hsteps : World.Steps w v) : v.GuardedAmid calls := by
  induction hsteps with
  | refl => exact h
  | tail _ hstep ih =>
    cases hstep with
    | outside htrees hjournal => exact ih.of_trees htrees hjournal
    | drawn t n => exact ih.modifyTree t (fun _ => rfl) fun _ => rfl
    | logged he => exact ih.log (Event.truthful_inner he _) (underway_inner he _)
    | looked t a => exact ih.log (ih.running t) rfl

theorem checkOut (h : w.GuardedAmid calls) (t : TreeId) (a : K) :
    (w.checkOut t a).GuardedAmid calls where
  toTracked := h.toTracked.modifyTree t fun _ => rfl
  unpaused hrun hs := by
    rw [agent?_checkOut] at hs
    split at hs
    · cases hs
    · exact h.unpaused hrun hs

theorem checkIn (h : w.GuardedAmid calls) {s : AgentState}
    (hs : .run t a ∈ calls → s.paused = false) : (w.checkIn t a s).GuardedAmid calls where
  toTracked := h.toTracked.modifyTree t fun _ => rfl
  unpaused {u b s'} hrun hs' := by
    rw [agent?_checkIn] at hs'
    split at hs'
    · rename_i hsame
      obtain ⟨rfl, rfl⟩ := hsame
      cases hs'
      exact hs hrun
    · exact h.unpaused hrun hs'

/-- An edit, and whatever else keeps it so, finds the agent of a tick unsuspended. -/
theorem state (h : w.GuardedAmid calls) (hrun : .run t a ∈ calls) :
    (w.state t a).paused = false := by
  rw [World.state]
  cases hagent : w.agent? t a with
  | none => rfl
  | some s => exact h.unpaused hrun hagent

/-- A call that is no run changes nothing about the ticks under way. -/
theorem cons_iff {c : Call K} (hc : c.tick? = none) :
    w.GuardedAmid (c :: calls) ↔ w.GuardedAmid calls := by
  have hmem : ∀ {t a}, .run t a ∈ c :: calls ↔ .run t a ∈ calls := by
    intro t a
    refine ⟨fun h => ?_, List.mem_cons_of_mem c⟩
    rcases List.mem_cons.1 h with rfl | h
    · cases hc
    · exact h
  have hticks : (c :: calls).filterMap Call.tick? = calls.filterMap Call.tick? := by
    rw [List.filterMap_cons, hc]
  exact ⟨fun h => ⟨⟨h.toGuarded, h.underway.trans hticks⟩, fun hrun => h.unpaused (hmem.2 hrun)⟩,
    fun h => ⟨⟨h.toGuarded, h.underway.trans hticks.symm⟩,
      fun hrun => h.unpaused (hmem.1 hrun)⟩⟩

/-- A tick that is entered takes the state of its agent out of the tree. -/
theorem enter (h : w.GuardedAmid calls) (a : K) (hidle : (w.tree t).running = false) :
    ((w.enter t a).checkOut t a).GuardedAmid (.run t a :: calls) where
  toTracked := (h.toTracked.enter a hidle).modifyTree t fun _ => rfl
  unpaused {u b s} hrun hs := by
    rw [agent?_checkOut] at hs
    split at hs
    · cases hs
    · rename_i hne
      rw [agent?_enter] at hs
      rcases List.mem_cons.1 hrun with heq | hrun
      · cases heq
        exact absurd ⟨rfl, rfl⟩ hne
      · exact h.unpaused hrun hs

theorem leave (h : w.GuardedAmid (.run t a :: calls)) (r : Except RunError Status) :
    (w.leave t a r).GuardedAmid calls where
  toTracked := h.toTracked.leave r
  unpaused hrun hs := by
    rw [agent?_leave] at hs
    exact h.unpaused (List.mem_cons_of_mem _ hrun) hs

/-- What a tick leaves of its agent may be suspended, for the tick is over. -/
theorem leave_checkIn (h : w.GuardedAmid (.run t a :: calls)) (s : AgentState)
    (r : Except RunError Status) : ((w.checkIn t a s).leave t a r).GuardedAmid calls where
  toTracked := (h.toTracked.modifyTree t
    (f := fun x => { x with agents := x.agents.set a s }) fun _ => rfl).leave r
  unpaused {u b s'} hrun hs := by
    rw [agent?_leave, agent?_checkIn] at hs
    split at hs
    · rename_i hsame
      obtain ⟨rfl, rfl⟩ := hsame
      have hmem : (t, a) ∈ calls.filterMap Call.tick? := List.mem_filterMap.2 ⟨_, hrun, rfl⟩
      exact absurd (List.mem_map_of_mem hmem) (List.nodup_cons.1 h.exclusive).1
    · exact h.unpaused (List.mem_cons_of_mem _ hrun) hs

end World.GuardedAmid

/-! ## Along courses -/

/-- A property holds wherever a course issues a call or is cut off, as long as it holds wherever
its calls are answered; and this holds where the course ends. -/
def Course.Along (I : World K A → Prop) (final : World K A → Prop) : Course K A α → Prop
  | .done _ w => final w
  | .cutOff w => I w
  | .call _ w next => I w ∧ ∀ r w', I w' → (next r w').Along I final

/-- A computation that has ended leaves such a state, one that was cut off such another. -/
def Outcome.Leaves {σ : Type} (final stop : σ → Prop) : Outcome σ α → Prop
  | .done _ s => final s
  | .cutOff s => stop s

namespace Course

variable {I final : World K A → Prop} {course : Course K A α}

omit [DecidableEq K] in
theorem Keeps.along (h : course.Keeps World.Steps w)
    (hI : ∀ {w v}, I w → World.Steps w v → I v) (hw : I w) : course.Along I I := by
  induction course generalizing w with
  | done | cutOff => exact hI hw h
  | call c v next ih => exact ⟨hI hw h.1, fun r v' hv' => ih r v' (h.2 r v') hv'⟩

omit [DecidableEq K] in
theorem Along.bind {final' : World K A → Prop} {f : α → World K A → Course K A β}
    (h : course.Along I final) (hnext : ∀ a w, final w → (f a w).Along I final') :
    (course.bind f).Along I final' := by
  induction course with
  | done a w => exact hnext a w h
  | cutOff w => exact h
  | call c v next ih => exact ⟨h.1, fun r v' hv' => ih r v' (h.2 r v' hv')⟩

omit [DecidableEq K] in
theorem Along.issues {handler : Handler K A} {d : Call K} (h : course.Along I final)
    (hanswer : ∀ {c w r w'}, I w → handler c w = .done r w' → I w')
    (hd : course.Issues handler d v) : I v := by
  induction hd with
  | here => exact h.1
  | later hdone _ ih => exact ih (h.2 _ _ (hanswer h.1 hdone))

omit [DecidableEq K] in
theorem Along.under {handler : Handler K A} {stop : World K A → Prop} (h : course.Along I final)
    (hanswer : ∀ c w, I w → (handler c w).Leaves I stop) (hstop : ∀ w, I w → stop w) :
    (course.under handler).Leaves final stop := by
  induction course with
  | done a w => exact h
  | cutOff w => exact hstop w h
  | call c w next ih =>
    have hreply := hanswer c w h.1
    rw [Course.under]
    cases hdone : handler c w with
    | cutOff w' =>
      rw [hdone] at hreply
      exact hreply
    | done r w' =>
      rw [hdone] at hreply
      exact ih r w' (h.2 r w' hreply)

end Course

/-! ## Operations -/

namespace Forest

variable {F : Forest K A} {n : Nat}

theorem runCourse_along (h : w.GuardedAmid calls) :
    (F.runCourse n t a w).Along (World.GuardedAmid (.run t a :: calls))
      (World.GuardedAmid calls) := by
  rw [runCourse]
  split
  · rename_i hrunning
    exact h.log ((h.running t).1 hrunning) rfl
  · rename_i hidle
    rw [Bool.not_eq_true] at hidle
    split
    · refine ⟨(h.toTracked.enter a hidle).leave _, fun hrun hs => ?_⟩
      rw [World.agent?_leave, World.agent?_enter] at hs
      exact h.unpaused hrun hs
    · refine (((F.tickOf t a).performCourse_steps n _).along World.GuardedAmid.steps
        (h.enter a hidle)).bind fun answer w₁ hw₁ => ?_
      split
      · exact hw₁.leave _
      · exact hw₁.leave_checkIn answer.2 answer.1

theorem abortCourse_along (h : w.GuardedAmid calls) :
    (F.abortCourse t a w).Along (World.GuardedAmid calls) (World.GuardedAmid calls) := by
  have hcancel : ∀ s, (F.cancelCourse t a s (w.checkOut t a)).Along (World.GuardedAmid calls)
      (World.GuardedAmid calls) := by
    intro s
    have hout := h.checkOut t a
    rw [cancelCourse]
    split
    · exact ((F.tickOf t a).endCourse_steps _ _ _ _).along World.GuardedAmid.steps hout
    · exact ⟨hout, fun _ _ hw' => hw'⟩
    · exact hout
  rw [abortCourse]
  split
  · exact h.log trivial rfl
  · split
    · exact h
    · refine (hcancel _).bind fun board w₁ hw₁ => ?_
      split
      · exact hw₁
      · exact hw₁.checkIn fun _ => rfl

theorem removeCourse_along (h : w.GuardedAmid calls) :
    (F.removeCourse t a w).Along (World.GuardedAmid calls) (World.GuardedAmid calls) := by
  rw [removeCourse]
  split
  · exact h
  · split
    · exact h
    · have hout := h.checkOut t a
      split
      · exact ⟨hout, fun _ _ hw' => hw'⟩
      · exact hout

theorem update_guardedAmid (h : w.GuardedAmid calls) (edit : Edit) :
    (update t a edit w).2.GuardedAmid calls := by
  rw [Forest.update]
  split
  · exact h
  · simp only
    split
    · exact (h.checkIn fun hrun => h.state hrun).modifyTree t
        (f := fun s => { s with poisoned := true }) (fun _ => rfl) fun _ => rfl
    · exact h.checkIn fun hrun => h.state hrun

/-- An operation leaves the ticks under way as it has found them. In its course it is under way
itself. -/
theorem course_along (n : Nat) (c : Call K) (h : w.GuardedAmid calls) :
    (F.course n c w).Along (World.GuardedAmid (c :: calls)) (World.GuardedAmid calls) := by
  have hcons : ∀ {c : Call K}, c.tick? = none →
      World.GuardedAmid (A := A) (c :: calls) = World.GuardedAmid calls :=
    fun hc => funext fun w => propext (World.GuardedAmid.cons_iff hc)
  cases c with
  | run t a => exact runCourse_along h
  | abort t a =>
    rw [hcons rfl]
    exact abortCourse_along h
  | remove t a =>
    rw [hcons rfl]
    exact removeCourse_along h
  | update t a edit => exact update_guardedAmid h edit

/-- So does what answers it, and where it is cut off the trees are marked as they should be. -/
theorem serve_leaves (n : Nat) {c : Call K} (h : w.GuardedAmid calls) :
    (F.serve n c w).Leaves (World.GuardedAmid calls) World.Guarded := by
  induction n generalizing calls c w with
  | zero => exact h.toGuarded
  | succ n ih =>
    rw [serve, answer_eq_under]
    exact (course_along n c h).under (fun d v hv => ih hv) fun v hv => hv.toGuarded

theorem serve_guardedAmid {c : Call K} {r : c.Reply} (h : w.GuardedAmid calls)
    (hserve : F.serve n c w = .done r v) : v.GuardedAmid calls := by
  have hleaves := serve_leaves (F := F) n (c := c) h
  rwa [hserve] at hleaves

/-! ## Every moment -/

/-- The worlds in which no operation is under way. At first no tree is marked, and the journal is
empty; an operation that is over may be followed by others, and by changes outside the trees. -/
inductive AtRest (F : Forest K A) : World K A → Prop where
  | first {w : World K A} : (∀ t, (w.tree t).running = false) → w.journal = [] → AtRest F w
  | outside {w v : World K A} : AtRest F w → v.trees = w.trees → v.journal = w.journal → AtRest F v
  | after {n : Nat} {c : Call K} {w w' : World K A} {r : c.Reply} :
      AtRest F w → F.serve n c w = .done r w' → AtRest F w'

/-- A call is issued in a world, amid these calls, innermost first: from outside if no operation
is under way, and otherwise by a hook or a link in the course of the innermost. -/
inductive Amid (F : Forest K A) : List (Call K) → Call K → World K A → Prop where
  | outermost {c : Call K} {w : World K A} : F.AtRest w → Amid F [] c w
  | issued {n : Nat} {calls : List (Call K)} {c d : Call K} {w v : World K A} :
      Amid F calls c w → (F.course n c w).Issues (F.serve n) d v → Amid F (c :: calls) d v

theorem AtRest.guardedAmid (h : F.AtRest w) : w.GuardedAmid [] := by
  induction h with
  | @first w hidle hjournal =>
    refine ⟨⟨⟨?_, fun t => ?_⟩, ?_⟩, nofun⟩
    · rw [hjournal]
      trivial
    · simp [hidle t, Busy, hjournal, underway]
    · rw [hjournal]
      rfl
  | outside _ htrees hjournal ih => exact ih.of_trees htrees hjournal
  | after _ hserve ih => exact serve_guardedAmid ih hserve

theorem Amid.guardedAmid {c : Call K} (h : F.Amid calls c w) : w.GuardedAmid calls := by
  induction h with
  | outermost hrest => exact hrest.guardedAmid
  | @issued n calls c d w v _ hissues ih =>
    exact (course_along n c ih).issues (fun hw hdone => serve_guardedAmid hw hdone) hissues

/-- An abort of an agent that its tree is ticking calls no hook. -/
theorem serve_abort_ticking (h : w.GuardedAmid calls) (hrun : .run t a ∈ calls) (n : Nat) :
    ∃ w', F.serve (n + 1) (.abort t a) w = .done () w' ∧
      (w'.journal = w.journal ∨ w'.journal = .abortSkipped t a :: w.journal) := by
  change ∃ w', F.abort (F.serve n) t a w = .done () w' ∧ _
  cases hpoisoned : (w.tree t).poisoned with
  | true => exact ⟨_, by rw [abort, if_pos hpoisoned], .inr rfl⟩
  | false =>
    cases hagent : w.agent? t a with
    | none => exact ⟨w, abort_absent hpoisoned hagent, .inl rfl⟩
    | some s =>
      have hcancel : F.cancel (F.serve n) t a s (w.checkOut t a) =
          .done s.board (w.checkOut t a) := cancel_unpaused _ (h.unpaused hrun hagent) _
      have hpoisoned' : ((w.checkOut t a).tree t).poisoned = false := by simpa using hpoisoned
      exact ⟨_, abort_of_cancel hpoisoned hagent hcancel hpoisoned', .inl rfl⟩

/-- Neither does its removal. -/
theorem serve_remove_ticking (h : w.GuardedAmid calls) (hrun : .run t a ∈ calls) (n : Nat) :
    ∃ r w', F.serve (n + 1) (.remove t a) w = .done r w' ∧ w'.journal = w.journal := by
  change ∃ r w', F.remove (F.serve n) t a w = .done r w' ∧ _
  cases hpoisoned : (w.tree t).poisoned with
  | true => exact ⟨false, w, by rw [remove, if_pos hpoisoned], rfl⟩
  | false =>
    cases hagent : w.agent? t a with
    | none => exact ⟨false, w, remove_absent hpoisoned hagent, rfl⟩
    | some s =>
      have hnone := Tree.awaited_unpaused (T := F.tree t) (h.unpaused hrun hagent)
      exact ⟨true, _, remove_unlinked hpoisoned hagent (by simp [hnone]), rfl⟩

/-- Whenever a call is issued, from outside or by a hook amid other calls, and whatever becomes
of it:

* a tree is marked as ticking exactly if a run of it is among the calls under way, and it is in
  one tick at a time;
* wherever an answer to the call is found or cut off, the marks and everything that was seen of
  them agree with the ticks then under way. When it is answered the marks are what they were,
  and none is set if no other call is under way;
* a run of a tree that is marked is refused, and nothing changes but the journal;
* an abort or a removal of an agent in a tree that is ticking it calls no hook. -/
theorem one_tick_at_a_time {c : Call K} (h : F.Amid calls c w) :
    (∀ t, (w.tree t).running = true ↔ ∃ a, .run t a ∈ calls) ∧
    ((calls.filterMap Call.tick?).map Prod.fst).Nodup ∧
    underway w.journal = calls.filterMap Call.tick? ∧
    (∀ n, (F.serve n c w).state.Guarded) ∧
    (∀ n r w', F.serve n c w = .done r w' →
      (∀ t, (w'.tree t).running = (w.tree t).running) ∧
        (calls = [] → ∀ t, (w'.tree t).running = false)) ∧
    (∀ n t a, (w.tree t).running = true →
      F.serve (n + 1) (.run t a) w = .done (.error .reentrant) (w.log (.refused t a))) ∧
    ∀ n t a, .run t a ∈ calls →
      (∃ w', F.serve (n + 1) (.abort t a) w = .done () w' ∧
        (w'.journal = w.journal ∨ w'.journal = .abortSkipped t a :: w.journal)) ∧
      ∃ r w', F.serve (n + 1) (.remove t a) w = .done r w' ∧ w'.journal = w.journal := by
  have hw := h.guardedAmid
  refine ⟨fun t => hw.running_iff, hw.exclusive, hw.underway, fun n => ?_, fun n r w' hserve => ?_,
    fun n t a hrunning => ?_,
    fun n t a hrun => ⟨serve_abort_ticking hw hrun n, serve_remove_ticking hw hrun n⟩⟩
  · have hleaves := serve_leaves (F := F) n (c := c) hw
    cases hserve : F.serve n c w with
    | done r w' =>
      rw [hserve] at hleaves
      exact hleaves.toGuarded
    | cutOff w' =>
      rw [hserve] at hleaves
      exact hleaves
  · have hw' := serve_guardedAmid hw hserve
    refine ⟨fun t => Bool.eq_iff_iff.2 (hw'.running_iff.trans hw.running_iff.symm), ?_⟩
    rintro rfl t
    rw [← Bool.not_eq_true, hw'.running_iff]
    exact fun ⟨a, ha⟩ => nomatch ha
  · change F.run (F.serve n) n t a w = _
    rw [run_eq, if_pos hrunning]

/-- A task looks at its own tree and runs another one, whose task runs the first. -/
theorem one_tick_at_a_time_nested :
    let back : Hook Unit Unit TaskResult :=
      .ask (.call (.run 0 ())) fun _ => .ask (.call (.abort 0 ())) fun _ => .done (.ok .success)
    let forth : Hook Unit Unit TaskResult :=
      .ask (.inspect 0 ()) fun _ => .ask (.call (.run 1 ())) fun _ => .done (.ok .success)
    let F : Forest Unit Unit :=
      ⟨[{ program := ⟨[⟨.task ⟨"forth", none, fun _ => forth, none⟩, 1, 2⟩]⟩ },
        { program := ⟨[⟨.task ⟨"back", none, fun _ => back, none⟩, 1, 2⟩]⟩ }]⟩
    let w : World Unit Unit := { ambient := () }
    (∃ v, F.Amid [.run 1 (), .run 0 ()] (.run 0 ()) v ∧ .looked 0 () true ∈ v.journal ∧
      (v.tree 0).running = true ∧
      F.serve 1 (.run 0 ()) v = .done (.error .reentrant) (v.log (.refused 0 ())) ∧
      ∃ v', F.serve 1 (.abort 0 ()) v = .done () v' ∧
        (v'.journal = v.journal ∨ v'.journal = .abortSkipped 0 () :: v.journal)) ∧
    ∃ w', F.serve 4 (.run 0 ()) w = .done (.ok .success) w' ∧
      ∀ t, (w'.tree t).running = false := by
  intro back forth F w
  have hfirst : F.Amid [] (.run 0 ()) w := .outermost (.first (fun _ => rfl) rfl)
  have hforth : F.Amid [.run 0 ()] (.run 1 ()) _ := .issued hfirst
    (show Course.Issues (F.serve 3) (.run 1 ()) _ (F.course 3 (.run 0 ()) w) from .here)
  have hback : F.Amid [.run 1 (), .run 0 ()] (.run 0 ()) _ := .issued hforth
    (show Course.Issues (F.serve 2) (.run 0 ()) _ (F.course 2 (.run 1 ()) _) from .here)
  obtain ⟨hmarked, -, -, -, -, hrefused, hcancel⟩ := one_tick_at_a_time hback
  have hrunning := (hmarked 0).2 ⟨(), .tail _ (.head _)⟩
  obtain ⟨-, -, -, -, hends, -⟩ := one_tick_at_a_time hfirst
  exact ⟨⟨_, hback, .tail _ (.tail _ (.head _)), hrunning, hrefused 0 0 () hrunning,
    (hcancel 0 0 () (.tail _ (.head _))).1⟩, _, rfl, (hends 4 _ _ rfl).2 rfl⟩

end Forest

end TickTree

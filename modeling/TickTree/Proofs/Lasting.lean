import TickTree.Proofs.Contracts

/-!
# What lasts

Between its calls an operation does a few kinds of things to the world, one after the other: it
changes the state of a tree, asks something of a registry, replaces the ambient value, or logs an
event (`World.Shift`, `Forest.course_shifts`). So worlds that follow each other in the course of
operations are joined by such shifts, whoever issued the operations (`Forest.Does.surrounds`), and
so are those of a whole sequence of operations with callers in between (`Forest.Sequence.shifts`).

What no shift takes back lasts for ever: a poisoned tree stays poisoned (`World.Shifts.poisoned`),
a poisoned registry stays as it is (`World.Shifts.registry`), and what is in the journal stays
there (`World.Shifts.journal`). The mark of a ticking tree does not last, but an operation that is
over leaves all marks as it has found them (`Forest.Does.sameMarks`).
-/

namespace TickTree

variable {K A α : Type}

/-! ## Shifts -/

/-- One thing that an operation does to the world by itself. -/
inductive World.Shift : World K A → World K A → Prop where
  | tree {w : World K A} (t : TreeId) {f : TreeState K → TreeState K} :
      (∀ s, s.poisoned = true → (f s).poisoned = true) → Shift w (w.modifyTree t f)
  | command {w : World K A} (r : RegistryId) (c : Registry.Command) :
      Shift w (w.setRegistry r ((w.registry r).answer c).2)
  | ambient {w : World K A} (value : A) : Shift w { w with ambient := value }
  | logged {w : World K A} (e : Event K) : Shift w (w.log e)

/-- What operations do to the world, one thing after the other. -/
abbrev World.Shifts : World K A → World K A → Prop := Relation.ReflTransGen World.Shift

/-- A poisoned registry answers all commands alike, and stays as it is. -/
theorem Registry.answer_poisoned {r : Registry} (h : r.poisoned = true) (c : Registry.Command) :
    (r.answer c).2 = r := by
  cases c <;> simp [answer, register, unregister, update, h]

namespace World

variable {w v : World K A}

theorem Shifts.poisoned {t : TreeId} (h : Shifts w v) (hw : (w.tree t).poisoned = true) :
    (v.tree t).poisoned = true := by
  induction h with
  | refl => exact hw
  | tail _ hshift ih =>
    cases hshift with
    | @tree u f hf =>
      rw [tree_modifyTree]
      split
      · rename_i htu
        exact hf _ (htu ▸ ih)
      · exact ih
    | command | ambient | logged => exact ih

theorem Shifts.sound {t : TreeId} (h : Shifts w v) (hv : (v.tree t).poisoned = false) :
    (w.tree t).poisoned = false := by
  refine Bool.eq_false_iff.2 fun hw => ?_
  rw [h.poisoned hw] at hv
  cases hv

theorem Shifts.registry {r : RegistryId} (h : Shifts w v) (hw : (w.registry r).poisoned = true) :
    v.registry r = w.registry r := by
  induction h with
  | refl => rfl
  | @tail u u' _ hshift ih =>
    cases hshift with
    | command x c =>
      rw [registry_setRegistry]
      split
      · rename_i hxr
        rw [hxr, Registry.answer_poisoned (by rw [ih, hw]), ih]
      · exact ih
    | tree | ambient | logged => exact ih

theorem Shifts.journal (h : Shifts w v) : w.journal <:+ v.journal := by
  induction h with
  | refl => exact List.suffix_rfl
  | tail _ hshift ih =>
    cases hshift with
    | logged e => exact ih.trans (List.suffix_cons e _)
    | tree | command | ambient => exact ih

end World

variable [DecidableEq K]

theorem World.shifts_spans : World.Spans (fun _ => True) (World.Shifts (K := K) (A := A)) where
  refl _ := .refl
  trans _ _ _ := .trans
  request {r} _ board w := by
    cases r with
    | call c => exact ⟨.refl, fun _ _ => .refl⟩
    | board | setBoard | ambient => exact .refl
    | setAmbient value => exact .single (.ambient value)
    | registry id c => exact .single (.command id c)
    | inspect t a => exact .single (.logged _)
    | note n => exact .single (.logged _)
  drawn _ t n := .single (.tree t fun _ hs => hs)
  logged _ e _ := .single (.logged e)

namespace World

variable {w : World K A} {t : TreeId} {a : K}

omit [DecidableEq K] in
theorem shifts_enter (w : World K A) (t : TreeId) (a : K) : Shifts w (w.enter t a) :=
  .tail (.single (.tree t (f := fun s => { s with running := true }) fun _ hs => hs)) (.logged _)

omit [DecidableEq K] in
theorem shifts_leave (w : World K A) (t : TreeId) (a : K) (r : Except RunError Status) :
    Shifts w (w.leave t a r) :=
  .tail (.single (.tree t (f := fun s => { s with running := false }) fun _ hs => hs)) (.logged _)

theorem shifts_checkOut (w : World K A) (t : TreeId) (a : K) : Shifts w (w.checkOut t a) :=
  .single (.tree t fun _ hs => hs)

theorem shifts_checkIn (w : World K A) (t : TreeId) (a : K) (s : AgentState) :
    Shifts w (w.checkIn t a s) :=
  .single (.tree t fun _ hs => hs)

end World

/-! ## Operations -/

namespace Forest

variable {F : Forest K A} {n : Nat} {t : TreeId} {a : K}

theorem runCourse_shifts (n : Nat) (t : TreeId) (a : K) (w : World K A) :
    (F.runCourse n t a w).Keeps World.Shifts w := by
  have hR := World.shifts_spans (K := K) (A := A)
  rw [runCourse]
  split
  · exact .single (.logged _)
  · split
    · exact (World.shifts_enter w t a).trans (World.shifts_leave _ t a _)
    · have htick : ((F.tickOf t a).performCourse n (w.state t a)
          ((w.enter t a).checkOut t a)).Keeps World.Shifts ((w.enter t a).checkOut t a) :=
        Tick.performCourse_spans hR
          (fun {_ _ task} _ _ => task.asks_of_forall fun _ => trivial) n _
      have hbegun := (World.shifts_enter w t a).trans (World.shifts_checkOut (w.enter t a) t a)
      refine (htick.from_earlier hR.trans hbegun).bind hR.trans fun answer v => ?_
      split
      · exact World.shifts_leave v t a _
      · exact (World.shifts_checkIn v t a answer.2).trans (World.shifts_leave _ t a _)

theorem abortCourse_shifts (t : TreeId) (a : K) (w : World K A) :
    (F.abortCourse t a w).Keeps World.Shifts w := by
  have hR := World.shifts_spans (K := K) (A := A)
  have hcancel : ∀ s v, (F.cancelCourse t a s v).Keeps World.Shifts v := by
    intro s v
    rw [cancelCourse]
    split
    · rename_i task _
      exact (F.tickOf t a).endCourse_spans hR (task.asks_of_forall fun _ => trivial) _ _
    · exact ⟨.refl, fun _ _ => .refl⟩
    · exact .refl
  rw [abortCourse]
  split
  · exact .single (.logged _)
  · split
    · exact .refl
    · refine ((hcancel _ _).from_earlier hR.trans (World.shifts_checkOut w t a)).bind hR.trans
        fun board v => ?_
      split
      · exact .refl
      · exact World.shifts_checkIn v t a _

theorem removeCourse_shifts (t : TreeId) (a : K) (w : World K A) :
    (F.removeCourse t a w).Keeps World.Shifts w := by
  rw [removeCourse]
  split
  · exact .refl
  · split
    · exact .refl
    · split
      · exact ⟨World.shifts_checkOut w t a, fun _ _ => .refl⟩
      · exact World.shifts_checkOut w t a

theorem update_shifts (t : TreeId) (a : K) (edit : Edit) (w : World K A) :
    World.Shifts w (update t a edit w).2 := by
  obtain ⟨⟨r, w'⟩, hupdate⟩ : ∃ p, update t a edit w = p := ⟨_, rfl⟩
  rw [hupdate]
  cases update_cases hupdate with
  | refused => exact .refl
  | died =>
    exact (World.shifts_checkIn w t a (w.state t a)).tail
      (.tree t (f := fun s => { s with poisoned := true }) fun _ _ => rfl)
  | edited => exact World.shifts_checkIn w t a _

/-- Between its calls an operation goes on by shifts. -/
theorem course_shifts (n : Nat) (c : Call K) (w : World K A) :
    (F.course n c w).Keeps World.Shifts w := by
  cases c with
  | run t a => exact runCourse_shifts n t a w
  | abort t a => exact abortCourse_shifts t a w
  | remove t a => exact removeCourse_shifts t a w
  | update t a edit => exact update_shifts t a edit w

end Forest

/-! ## The order of errands -/

omit [DecidableEq K] in
/-- What a course keeps joins the worlds before and after the errands it goes by, in their
order. -/
theorem Course.Goes.ordered {R : World K A → World K A → Prop} {does : Errand K A → Prop}
    {course : Course K A α} {es : List (Errand K A)} {a : α} {w v : World K A}
    (trans : ∀ w v u, R w v → R v u → R w u) (h : course.Goes does es a v)
    (hkeeps : course.Keeps R w) (hes : ∀ e ∈ es, R e.before e.after) :
    R w v ∧ (∀ e ∈ es, R w e.before ∧ R e.after v) ∧
      es.Pairwise fun x e => R x.after e.before := by
  induction h generalizing w with
  | done => exact ⟨hkeeps, nofun, .nil⟩
  | call hdoes hgoes ih =>
    obtain ⟨hhead, hrest⟩ := List.forall_mem_cons.1 hes
    obtain ⟨hlast, hbetween, hpairs⟩ := ih (hkeeps.2 _ _) hrest
    have hfirst : R w _ := trans _ _ _ hkeeps.1 hhead
    refine ⟨trans _ _ _ hfirst hlast, List.forall_mem_cons.2 ⟨⟨hkeeps.1, hlast⟩, fun e he => ?_⟩,
      .cons (fun e he => (hbetween e he).1) hpairs⟩
    exact ⟨trans _ _ _ hfirst (hbetween e he).1, (hbetween e he).2⟩

namespace Forest

variable {F : Forest K A} {n : Nat} {root x e : Errand K A} {around later : List (Errand K A)}

theorem Does.shifts (h : F.Does n e) : World.Shifts e.before e.after := by
  induction n generalizing e with
  | zero => exact h.elim
  | succ n ih =>
    obtain ⟨m, hm, hgoes⟩ := h.goes
    obtain rfl := Nat.succ.inj hm
    exact (hgoes.ordered (fun _ _ _ => .trans) (course_shifts _ e.call e.before)
      fun d hd => ih (hgoes.all d hd)).1

/-- The worlds before and after the errands of an errand are joined in their order. -/
theorem Does.ordered (h : F.Does n e) :
    (∀ d ∈ e.inner, World.Shifts e.before d.before ∧ World.Shifts d.after e.after) ∧
      e.inner.Pairwise fun x d => World.Shifts x.after d.before := by
  obtain ⟨m, rfl, hgoes⟩ := h.goes
  exact (hgoes.ordered (fun _ _ _ => .trans) (course_shifts m e.call e.before)
    fun d hd => (hgoes.all d hd).shifts).2

/-- From the end of an errand in the course of another, shifts lead to what is done later, to the
ends of all that is around it, and so to the end of the outermost; shifts lead to its beginning. -/
theorem Does.surrounds (h : F.Does n root) (hat : root.At around later x) :
    World.Shifts root.before x.before ∧ World.Shifts x.after root.after ∧
      (∀ e ∈ around, World.Shifts x.after e.after) ∧
      ∀ e ∈ later, World.Shifts x.after e.before := by
  induction hat with
  | root => exact ⟨.refl, .refl, nofun, nofun⟩
  | @inner around later earlier rest d x hat hinner ih =>
    obtain ⟨hbefore, hlast, haround, hlater⟩ := ih
    obtain ⟨m, hm⟩ := h.at hat
    obtain ⟨hbetween, hpairs⟩ := hm.ordered
    have hmem : x ∈ d.inner := by
      rw [hinner]
      exact List.mem_append_right earlier (.head rest)
    obtain ⟨hbegins, hends⟩ := hbetween x hmem
    refine ⟨hbefore.trans hbegins, hends.trans hlast,
      List.forall_mem_cons.2 ⟨hends, fun e he => hends.trans (haround e he)⟩, fun e he => ?_⟩
    rcases List.mem_append.1 he with hrest | hlate
    · rw [hinner, List.pairwise_append] at hpairs
      exact (List.pairwise_cons.1 hpairs.2.1).1 e hrest
    · exact hends.trans (hlater e hlate)

theorem Does.begins (h : F.Does n root) (hx : root.Within x) :
    World.Shifts root.before x.before := by
  obtain ⟨around, later, hat⟩ := hx
  exact (h.surrounds hat).1

end Forest

/-! ## Ticks under way -/

omit [DecidableEq K] in
/-- What a course keeps, and what answers its calls, joins the worlds before and after it. -/
theorem Course.Keeps.under {R : World K A → World K A → Prop}
    (trans : ∀ w v u, R w v → R v u → R w u) {handler : Handler K A}
    (hhandler : ∀ {c w r w'}, handler c w = .done r w' → R w w') {course : Course K A α}
    {w v : World K A} {a : α} (h : course.Keeps R w) (hdone : course.under handler = .done a v) :
    R w v := by
  induction course generalizing w with
  | done b x =>
    cases hdone
    exact h
  | cutOff x => cases hdone
  | call c x next ih =>
    obtain ⟨r, x', hreply, hnext⟩ := Outcome.bind_eq_done_iff.1 hdone
    exact trans _ _ _ (trans _ _ _ h.1 (hhandler hreply)) (ih r x' (h.2 r x') hnext)

namespace Forest

variable {F : Forest K A} {t : TreeId} {a : K} {n k : Nat} {f : Frame} {w v : World K A}

theorem serve_shifts {c : Call K} {r : c.Reply} (h : F.serve n c w = .done r v) :
    World.Shifts w v := by
  obtain ⟨inner, hdoes⟩ := serve_eq_done_iff.1 h
  exact hdoes.shifts

theorem advance_shifts {p : Progress}
    (h : (F.tickOf t a).advance (F.serve n) f w = .done p v) : World.Shifts w v := by
  rw [Tick.advance_eq_under] at h
  exact Course.Keeps.under (fun _ _ _ => .trans) serve_shifts (Tick.advanceCourse_spans
    World.shifts_spans (fun {_ _ task} _ _ => task.asks_of_forall fun _ => trivial) f) h

theorem walk_shifts {p : Progress} (h : (F.tickOf t a).walk (F.serve n) k f w = .done p v) :
    World.Shifts w v := by
  induction k generalizing f w with
  | zero =>
    cases h
    exact .refl
  | succ k ih =>
    rw [Tick.walk_succ, Outcome.bind_eq_done_iff] at h
    obtain ⟨p', y, hadvance, hrest⟩ := h
    cases p' with
    | underway f' => exact (advance_shifts hadvance).trans (ih hrest)
    | ended r s =>
      cases hrest
      exact advance_shifts hadvance

end Forest

/-! ## Sessions -/

namespace Forest

/-- Operations done one after the other, with what their callers do outside the trees in between. -/
inductive Sequence (F : Forest K A) : World K A → List (Errand K A) → World K A → Prop where
  | nil {w : World K A} : Sequence F w [] w
  | does {n : Nat} {e : Errand K A} {es : List (Errand K A)} {w' : World K A} :
      F.Does n e → Sequence F e.after es w' → Sequence F e.before (e :: es) w'
  | command {w w' : World K A} {es : List (Errand K A)} (r : RegistryId) (c : Registry.Command) :
      Sequence F (w.setRegistry r ((w.registry r).answer c).2) es w' → Sequence F w es w'
  | ambient {w w' : World K A} {es : List (Errand K A)} (value : A) :
      Sequence F { w with ambient := value } es w' → Sequence F w es w'

variable {F : Forest K A} {w w' : World K A} {es : List (Errand K A)}

theorem Sequence.all (h : F.Sequence w es w') : ∀ e ∈ es, ∃ n, F.Does n e := by
  induction h with
  | nil => exact nofun
  | does hdoes _ ih => exact List.forall_mem_cons.2 ⟨⟨_, hdoes⟩, ih⟩
  | command _ _ _ ih => exact ih
  | ambient _ _ ih => exact ih

/-- The worlds before and after the operations of a sequence are joined in their order. -/
theorem Sequence.shifts (h : F.Sequence w es w') :
    World.Shifts w w' ∧ (∀ e ∈ es, World.Shifts w e.before ∧ World.Shifts e.after w') ∧
      es.Pairwise fun x e => World.Shifts x.after e.before := by
  induction h with
  | nil => exact ⟨.refl, nofun, .nil⟩
  | does hdoes _ ih =>
    obtain ⟨hlast, hbetween, hpairs⟩ := ih
    have hfirst := hdoes.shifts
    refine ⟨hfirst.trans hlast, List.forall_mem_cons.2 ⟨⟨.refl, hlast⟩, fun e he => ?_⟩,
      .cons (fun e he => (hbetween e he).1) hpairs⟩
    exact ⟨hfirst.trans (hbetween e he).1, (hbetween e he).2⟩
  | command r c _ ih =>
    obtain ⟨hlast, hbetween, hpairs⟩ := ih
    exact ⟨.head (.command r c) hlast,
      fun e he => ⟨.head (.command r c) (hbetween e he).1, (hbetween e he).2⟩, hpairs⟩
  | ambient value _ ih =>
    obtain ⟨hlast, hbetween, hpairs⟩ := ih
    exact ⟨.head (.ambient value) hlast,
      fun e he => ⟨.head (.ambient value) (hbetween e he).1, (hbetween e he).2⟩, hpairs⟩

end Forest

/-! ## Marks of ticking trees -/

/-- The same trees are marked as ticking. -/
def World.SameMarks (w v : World K A) : Prop := ∀ t, (v.tree t).running = (w.tree t).running

/-- The contract that marks are left as they were found. -/
def Contract.marking : Contract K A where
  pre _ _ := True
  post _ w _ w' := World.SameMarks w w'

namespace World

omit [DecidableEq K] in
theorem SameMarks.modifyTree {w v : World K A} (h : SameMarks w v) (t : TreeId)
    {f : TreeState K → TreeState K} (hf : ∀ s, (f s).running = s.running) :
    SameMarks w (v.modifyTree t f) := fun u =>
  (project_modifyTree v t (p := (·.running)) hf u).trans (h u)

omit [DecidableEq K] in
theorem sameMarks_inert (w : World K A) : World.Inert (SameMarks w) where
  outside hv htrees u := by
    rw [tree, htrees]
    exact hv u
  drawn hv t _ := hv.modifyTree t fun _ => rfl

omit [DecidableEq K] in
theorem SameMarks.lets {w : World K A} (c : Call K) :
    Contract.marking.Lets (SameMarks w) c :=
  fun _ hv => ⟨trivial, fun _ _ _ hpost u => (hpost u).trans (hv u)⟩

omit [DecidableEq K] in
theorem SameMarks.allowed {w : World K A} (r : Request K A) :
    r.Allowed .marking (SameMarks w) := by
  cases r with
  | call c => exact SameMarks.lets c
  | _ => trivial

/-- A tick that is over has taken back the mark it has set. -/
theorem SameMarks.leave {w v : World K A} {t : TreeId} {a : K} (hidle : (w.tree t).running = false)
    (h : SameMarks ((w.enter t a).checkOut t a) v) (r : Except RunError Status) :
    SameMarks w (v.leave t a r) := by
  intro u
  by_cases htu : t = u
  · subst htu
    simp [hidle]
  · rw [tree_leave_of_ne _ _ _ htu, h u, tree_checkOut_of_ne _ _ htu, tree_enter_of_ne _ _ htu]

end World

namespace Forest

variable {F : Forest K A} {n : Nat} {t : TreeId} {a : K} {w : World K A}

theorem runCourse_marking : (F.runCourse n t a w).Meets .marking
    fun _ w' => World.SameMarks w w' := by
  rw [runCourse]
  split
  · exact fun _ => rfl
  · rename_i hrunning
    have hidle : (w.tree t).running = false := by simpa using hrunning
    split
    · refine World.SameMarks.leave hidle (v := w.enter t a) (fun u => ?_) _
      by_cases htu : t = u
      · subst htu
        simp
      · rw [World.tree_checkOut_of_ne _ _ htu]
    · have hself : World.SameMarks ((w.enter t a).checkOut t a) ((w.enter t a).checkOut t a) :=
        fun _ => rfl
      refine (Tick.performCourse_meets (World.sameMarks_inert _)
        (fun {_ _ task} _ _ => task.asks_of_forall World.SameMarks.allowed)
        (fun _ _ => World.SameMarks.lets _) hself n (w.state t a)).bind fun answer v hv => ?_
      split
      · exact hv.leave hidle _
      · have hin : World.SameMarks ((w.enter t a).checkOut t a) (v.checkIn t a answer.2) :=
          hv.modifyTree t fun _ => rfl
        exact hin.leave hidle _

theorem abortCourse_marking : (F.abortCourse t a w).Meets .marking
    fun _ w' => World.SameMarks w w' := by
  have hout : World.SameMarks w (w.checkOut t a) :=
    World.SameMarks.modifyTree (fun _ => rfl) t fun _ => rfl
  rw [abortCourse]
  split
  · exact fun _ => rfl
  · split
    · exact fun _ => rfl
    · rename_i s _
      have hcancel : (F.cancelCourse t a s (w.checkOut t a)).Meets .marking
          fun _ v => World.SameMarks w v := by
        rw [cancelCourse]
        split
        · rename_i task _
          exact Tick.endCourse_meets (World.sameMarks_inert w)
            (fun hfinish => (task.asks_of_forall World.SameMarks.allowed).finish hfinish _ _) hout _
        · exact ⟨trivial, fun _ _ _ hpost u => (hpost u).trans (hout u)⟩
        · exact hout
      refine hcancel.bind fun board v hv => ?_
      split
      · exact hv
      · exact hv.modifyTree t fun _ => rfl

theorem removeCourse_marking : (F.removeCourse t a w).Meets .marking
    fun _ w' => World.SameMarks w w' := by
  have hout : World.SameMarks w (w.checkOut t a) :=
    World.SameMarks.modifyTree (fun _ => rfl) t fun _ => rfl
  rw [removeCourse]
  split
  · exact fun _ => rfl
  · split
    · exact fun _ => rfl
    · split
      · exact ⟨trivial, fun _ _ _ hpost u => (hpost u).trans (hout u)⟩
      · exact hout

theorem update_sameMarks (t : TreeId) (a : K) (edit : Edit) (w : World K A) :
    World.SameMarks w (update t a edit w).2 := by
  have hin (s : AgentState) : World.SameMarks w (w.checkIn t a s) :=
    World.SameMarks.modifyTree (fun _ => rfl) t fun _ => rfl
  obtain ⟨⟨r, w'⟩, hupdate⟩ : ∃ p, update t a edit w = p := ⟨_, rfl⟩
  rw [hupdate]
  cases update_cases hupdate with
  | refused => exact fun _ => rfl
  | died => exact (hin _).modifyTree t fun _ => rfl
  | edited => exact hin _

theorem fulfils_marking (F : Forest K A) : F.Fulfils .marking := by
  intro n c w _
  cases c with
  | run t a => exact runCourse_marking.imp fun _ _ h _ => h
  | abort t a => exact abortCourse_marking.imp fun _ _ h _ => h
  | remove t a => exact removeCourse_marking.imp fun _ _ h _ => h
  | update t a edit => exact fun _ => update_sameMarks t a edit w

/-- An operation leaves the marks of all trees as it has found them. -/
theorem Does.sameMarks {e : Errand K A} (h : F.Does n e) : World.SameMarks e.before e.after :=
  (h.within F.fulfils_marking trivial (fun _ _ => trivial) (.self e)).2

end Forest

end TickTree

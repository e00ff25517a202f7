import TickTree.Proofs.Bounds
import TickTree.Proofs.Cancelling

/-!
# Sessions on delegating trees

A session is any sequence of ticks, aborts and removals of agents in one tree, with
whatever they answer (`Forest.Session`). A session on a tree that delegates is one on its
inlined version and the other way round, with the same answers and the same hook calls
(`Forest.session_inlined`).
-/

namespace TickTree

variable {K A : Type} [DecidableEq K]

/-- Nobody has used a tree yet, and nothing keeps it from ticking. -/
structure World.Fresh (w : World K A) (t : TreeId) : Prop where
  ready : w.Ready t
  absent : ∀ a, w.agent? t a = none

namespace Forest

variable {F G : Forest K A} {extent : TreeId → Nat} {roots : List (Node K A)}
  {r : Option RegistryId} {t o : TreeId} {base : Nat} {exit : Verdict → Nat} {a : K}
  {w v : World K A} {s s' : AgentState}

/-! ## Answers -/

theorem answers_abort {n : Nat} {w' : World K A} (h : F.abort (F.serve n) t a w = .done () w') :
    F.Answers (.abort t a) w () w' := ⟨n + 1, h⟩

theorem answers_remove {n : Nat} {found : Bool} {w' : World K A}
    (h : F.remove (F.serve n) t a w = .done found w') : F.Answers (.remove t a) w found w' :=
  ⟨n + 1, h⟩

theorem answers_run {n : Nat} {result : Except RunError Status} {w₁ : World K A}
    (hready : w.Ready t) (hin : (w.state t a).cursor < (F.tree t).program.length)
    (hwalk : (F.tickOf t a).walk (F.serve 0) n (.begin (w.state t a))
      ((w.enter t a).checkOut t a) = .done (.ended result s) w₁)
    (hpoisoned : (w₁.tree t).poisoned = false) :
    F.Answers (.run t a) w result ((w₁.checkIn t a s).leave t a result) := by
  have hwalk' := Tick.walk_below (F.tickOf t a) (F.serve_mono (Nat.zero_le n)) n _ _ _ _ hwalk
  exact ⟨n + 1, run_of_perform hready.1 hready.2 (Tick.perform_of_walk hin hwalk') hpoisoned⟩

/-- A tick that leaves its tree unpoisoned leaves it with the agent. -/
theorem known_of_run {n : Nat} {result : Except RunError Status} {w' : World K A}
    (hready : w.Ready t) (hready' : w'.Ready t)
    (h : F.serve n (.run t a) w = .done result w') : (w'.agent? t a).isSome = true := by
  cases n with
  | zero => cases h
  | succ n =>
    cases run_cases h with
    | refused hrunning => simp [hready.1] at hrunning
    | poisoned _ hpoisoned => simp [hready.2] at hpoisoned
    | lost _ _ _ hpoisoned => simp [World.Ready, hpoisoned] at hready'
    | ticked _ _ _ _ => simp [World.agent?_ticked]

/-- A tree is the inlined version of a tree that delegates. -/
structure Inlines (G : Forest K A) (o : TreeId) (F : Forest K A) (roots : List (Node K A))
    (t : TreeId) : Prop where
  delegates : F.Delegates roots (G.tree o).registry
  compiled : ∃ root, (inlineAll roots)[t]? = some root ∧ compile root = .ok (G.tree o).program
  unlimited : (G.tree o).config.effectiveLimit = none

section

variable (hG : G.Inlines o F roots t)
include hG

omit [DecidableEq K] in
theorem Inlines.lt : t < roots.length := by
  obtain ⟨root, hroot, -⟩ := hG.compiled
  rw [← length_inlineAll roots]
  exact (List.getElem?_eq_some_iff.1 hroot).1

omit [DecidableEq K] in
theorem Inlines.unfolds :
    F.Unfolds (extentOf roots) (G.tree o).program t 0 (G.tree o).program.ends := by
  obtain ⟨root, hroot, hcompile⟩ := hG.compiled
  exact unfolds_of_placed hG.delegates.built hG.delegates.fixed hroot
    (Node.placed_of_compile hcompile)

omit [DecidableEq K] in
theorem Inlines.length : (G.tree o).program.length = extentOf roots t := by
  obtain ⟨root, hroot, hcompile⟩ := hG.compiled
  rw [Node.length_of_compile hcompile, extentOf, hroot]
  rfl

end

/-- A place in a tree is a place in what takes the place of the tree. -/
theorem Stands.lt_extent {P : Program K A} (hF : F.Delegates roots r) (ht : t < roots.length)
    (hP : F.Unfolds (extentOf roots) P t base exit)
    (h : F.Stands (extentOf roots) a w t base exit s s')
    (hin : s.cursor < (F.tree t).program.length) : s'.cursor < base + extentOf roots t := by
  induction h with
  | here _ hcursor =>
    rw [hcursor]
    exact (hF.embeds ht hP).upper hin
  | inside _ hget hop hbelow _ _ hinner hstands ih =>
    have hlt := ih (Nat.lt_trans hbelow ht) (hP.link hget hop).2 (hstands.lt_length hinner)
    obtain ⟨-, hupper, -⟩ := hF.moved_bounds ht hP hget
    rw [hop, Op.width] at hupper
    omega

/-! ## Keeping in step -/

/-- What is kept of an agent in a tree and in its inlined version stands for one place. -/
structure Level (F G : Forest K A) (roots : List (Node K A)) (t o : TreeId) (w v : World K A)
    (a : K) : Prop where
  stands : F.Stands (extentOf roots) a w t 0 (G.tree o).program.ends (w.state t a) (v.state o a)
  inside : (w.state t a).cursor < (F.tree t).program.length
  known : (w.agent? t a).isSome = (v.agent? o a).isSome

/-- Between operations, a tree and its inlined version are level for every agent, in worlds
beside each other. -/
structure InStep (F G : Forest K A) (roots : List (Node K A)) (t o : TreeId) (w v : World K A) :
    Prop where
  beside : w.Beside v
  ready : ∀ u ≤ t, w.Ready u
  ready' : v.Ready o
  level : ∀ a, F.Level G roots t o w v a

section

variable {w' v' : World K A}

theorem Level.congr {b : K} (h : F.Level G roots t o w v b)
    (hw : ∀ u ≤ t, w'.agent? u b = w.agent? u b)
    (hv : v'.agent? o b = v.agent? o b) : F.Level G roots t o w' v' b := by
  have hstate : ∀ u ≤ t, w'.state u b = w.state u b := fun u hu => by
    rw [World.state, World.state, hw u hu]
  have hstate' : v'.state o b = v.state o b := by rw [World.state, World.state, hv]
  have hown := hstate t (Nat.le_refl t)
  refine ⟨?_, by rw [hown]; exact h.inside, by rw [hw t (Nat.le_refl t), hv]; exact h.known⟩
  rw [hown, hstate']
  exact h.stands.congr fun u hu => hstate u (Nat.le_of_lt hu)

/-- An operation on one agent keeps the others level. -/
theorem InStep.after (h : F.InStep G roots t o w v) (hw : w.Within (t + 1) a w')
    (hv : v.Within (o + 1) a v') (hbeside : w'.Beside v') (hlevel : F.Level G roots t o w' v' a) :
    F.InStep G roots t o w' v' := by
  refine ⟨hbeside, fun u hu => hw.ready u (h.ready u hu), hv.ready o h.ready', fun b => ?_⟩
  by_cases hb : b = a
  · rw [hb]
    exact hlevel
  · exact (h.level b).congr (fun u _ => hw.agent? fun heq => hb heq.2)
      (hv.agent? fun heq => hb heq.2)

/-- An agent that is settled stands at the beginning. -/
theorem Inlines.settled (hG : G.Inlines o F roots t) (hsettled : ∀ u ≤ t, w.Settled u a)
    (hcursor : s'.cursor = 0) (hpaused : s'.paused = false) :
    F.Stands (extentOf roots) a w t 0 (G.tree o).program.ends (w.state t a) s' ∧
      (w.state t a).cursor < (F.tree t).program.length := by
  obtain ⟨hzero, hawake⟩ := hsettled t (Nat.le_refl t)
  have hpos := hG.delegates.length_pos hG.lt
  refine ⟨.here (hpaused.trans hawake.symm) ?_ ?_ (.inl (by rw [hzero]; exact hpos)) ?_
    fun u hu => hsettled u (Nat.le_of_lt hu), by rw [hzero]; exact hpos⟩
  · rw [hzero, hcursor, Program.moved_zero hpos]
  · rw [hzero]
    exact hG.delegates.agree_zero hG.lt _ _ _
  · intro hpaused'
    rw [hawake] at hpaused'
    cases hpaused'

end

/-! ### Ticks -/

section

variable {w' v' v₁ : World K A} {result : Except RunError Status}

theorem InStep.cursor_lt (hG : G.Inlines o F roots t) (h : F.InStep G roots t o w v) (a : K) :
    (v.state o a).cursor < (G.tree o).program.length := by
  have hlt := (h.level a).stands.lt_extent hG.delegates hG.lt hG.unfolds (h.level a).inside
  rwa [Nat.zero_add, ← hG.length] at hlt

/-- The inlined tree has ticked next to the tree. -/
theorem InStep.ticked (hG : G.Inlines o F roots t) (h : F.InStep G roots t o w v) {n : Nat}
    (hwalk : (G.tickOf o a).walk (G.serve 0) n (.begin (v.state o a))
      ((v.enter o a).checkOut o a) = .done (.ended result s') v₁)
    (htrees : v₁.trees = ((v.enter o a).checkOut o a).trees) (hbeside : w'.Beside v₁)
    (hwithin : w.Within (t + 1) a w') (hknown : (w'.agent? t a).isSome = true)
    (hstands : F.Stands (extentOf roots) a w' t 0 (G.tree o).program.ends (w'.state t a) s' ∧
      (w'.state t a).cursor < (F.tree t).program.length) :
    ∃ v', G.Answers (.run o a) v result v' ∧ F.InStep G roots t o w' v' := by
  have hinside : ((v.enter o a).checkOut o a).Within o a v₁ := .of_trees htrees
  have hpoisoned : (v₁.tree o).poisoned = false := by
    have hsame := hinside.poisoned o
    simpa [h.ready'.2] using hsame
  refine ⟨_, answers_run h.ready' (h.cursor_lt hG a) hwalk hpoisoned, h.after hwithin
    (within_of_walk hinside h.ready' s')
    (((hbeside.modify_right o _).modify_right o _).log_right rfl) ⟨?_, hstands.2, ?_⟩⟩
  · have hkept : ((v₁.checkIn o a s').leave o a result).state o a = s' :=
      World.state_of_agent? (World.agent?_ticked v₁ o a s' result)
    rw [hkept]
    exact hstands.1
  · rw [hknown, World.agent?_ticked]
    rfl

/-- A tick of a tree is one of its inlined version. -/
theorem InStep.run (hG : G.Inlines o F roots t) (h : F.InStep G roots t o w v)
    (hrun : F.Answers (.run t a) w result w') :
    ∃ v', G.Answers (.run o a) v (result.mapError RunError.innermost) v' ∧
      F.InStep G roots t o w' v' := by
  obtain ⟨n, hrun⟩ := hrun
  have hregistry : (G.tickOf o a).tree.registry = (G.tree o).registry := rfl
  have hstands : F.Stands (extentOf roots) (G.tickOf o a).agent w t 0 (G.tree o).program.ends
      (w.state t a) (Frame.begin (v.state o a)).standing := (h.level a).stands
  have hbeside : w.Beside ((v.enter o a).checkOut o a) :=
    ((h.beside.modify_right o _).log_right rfl).modify_right o _
  obtain ⟨hmirror, hwithin⟩ := serve_mirrors hG.delegates hregistry hG.unlimited n (G.serve 0)
    hG.lt hG.unfolds hstands (h.level a).inside h.ready hbeside hrun
  have hknown : (w'.agent? t a).isSome = true :=
    known_of_run (h.ready t (Nat.le_refl t)) (hwithin.ready t (h.ready t (Nat.le_refl t))) hrun
  cases hmirror with
  | @concluded verdict _ g v₁ _ _ hwalk _ hcursor _ _ hbeside' htrees hzero hawake hlower =>
    have hresult : (Ending.concluded verdict).result = .ok verdict.status := by
      cases verdict <;> rfl
    have hend := Tick.walk_one_ended (Tick.advance_ends (G.tickOf o a) (G.serve 0) hcursor v₁)
    rw [hresult] at hend
    exact h.ticked hG ((Tick.walk_add 1 hwalk).trans hend) htrees hbeside' hwithin hknown
      (hG.settled (World.settled_upto ⟨hzero, hawake⟩ hlower) rfl rfl)
  | suspended hwalk hpaused _ hbeside' htrees hstands' =>
    exact h.ticked hG hwalk htrees hbeside' hwithin hknown
      ⟨hstands', hstands'.lt_length hpaused⟩
  | failed hwalk hcursor' hpaused' hbeside' htrees hzero hawake hlower =>
    exact h.ticked hG hwalk htrees hbeside' hwithin hknown
      (hG.settled (World.settled_upto ⟨hzero, hawake⟩ hlower) hcursor' hpaused')

/-- Where the inlined version of a tree ticks, so does the tree. -/
theorem InStep.run_ends (hG : G.Inlines o F roots t) (h : F.InStep G roots t o w v)
    (hrun : G.Answers (.run o a) v result v') : ∃ result w', F.Answers (.run t a) w result w' := by
  obtain ⟨n, hrun⟩ := hrun
  cases n with
  | zero => cases hrun
  | succ n =>
    have hregistry : (G.tickOf o a).tree.registry = (G.tree o).registry := rfl
    have hstands : F.Stands (extentOf roots) (G.tickOf o a).agent w t 0 (G.tree o).program.ends
        (w.state t a) (Frame.begin (v.state o a)).standing := (h.level a).stands
    have hbeside : w.Beside ((v.enter o a).checkOut o a) :=
      ((h.beside.modify_right o _).log_right rfl).modify_right o _
    have hends : ∀ {result s v₁}, (G.tickOf o a).perform (G.serve n) n (v.state o a)
        ((v.enter o a).checkOut o a) = .done (result, s) v₁ →
        ∃ result w', F.Answers (.run t a) w result w' := by
      intro result s v₁ hperform
      have hwalk := Tick.walk_of_perform (h.cursor_lt hG a) hperform
      obtain ⟨result', w', hserve⟩ := serve_ends hG.delegates hregistry hG.unlimited hG.lt
        hG.unfolds hstands (h.level a).inside h.ready hbeside hwalk (Nat.le_refl _)
      exact ⟨result', w', _, hserve⟩
    cases run_cases hrun with
    | refused hrunning => simp [h.ready'.1] at hrunning
    | poisoned _ hpoisoned => simp [h.ready'.2] at hpoisoned
    | lost _ _ hperform => exact hends hperform
    | ticked _ _ hperform => exact hends hperform

end

/-! ### Aborts and removals -/

theorem InStep.settled (hG : G.Inlines o F roots t) (h : F.InStep G roots t o w v)
    {w' v' : World K A} (hw : w.Within (t + 1) a w') (hv : v.Within (o + 1) a v')
    (hbeside : w'.Beside v') (hsettled : ∀ u ≤ t, w'.Settled u a) (hsettled' : v'.Settled o a)
    (hknown : (w'.agent? t a).isSome = (v'.agent? o a).isSome) :
    F.InStep G roots t o w' v' :=
  have hstands := hG.settled hsettled hsettled'.1 hsettled'.2
  h.after hw hv hbeside ⟨hstands.1, hstands.2, hknown⟩

/-- An abort of an agent in a tree is one in its inlined version. -/
theorem InStep.abort (hG : G.Inlines o F roots t) (h : F.InStep G roots t o w v) (a : K) :
    ∃ w' v', F.Answers (.abort t a) w () w' ∧ G.Answers (.abort o a) v () v' ∧
      F.InStep G roots t o w' v' := by
  have haborts : ∀ {v}, w.Beside v → ∃ w', F.serve (t + 1) (.abort t a) w = .done () w' ∧
      G.Cancelled (G.serve 0) o t a _ w v w' := fun hbeside =>
    serve_abort hG.delegates (G.serve 0) hG.unfolds (h.level a).stands h.ready hbeside
      (Nat.lt_succ_self t)
  cases hagent : v.agent? o a with
  | none =>
    obtain ⟨w', hserve, ⟨board, v₁, hcancel, hbeside, htrees⟩, hwithin, hsettled, hknown⟩ :=
      haborts h.beside
    have hown := World.settled_of_absent hagent
    rw [cancel_unpaused (G.serve 0) hown.2] at hcancel
    cases hcancel
    exact ⟨w', v, ⟨_, hserve⟩, answers_abort (n := 0) (abort_absent h.ready'.2 hagent),
      h.settled hG hwithin (.of_trees rfl) hbeside hsettled hown (hknown.trans (h.level a).known)⟩
  | some s =>
    have hbeside₁ : w.Beside (v.checkOut o a) := h.beside.modify_right o _
    obtain ⟨w', hserve, ⟨board, v₁, hcancel, hbeside, htrees⟩, hwithin, hsettled, hknown⟩ :=
      haborts hbeside₁
    rw [World.state_of_agent? hagent] at hcancel
    have hinside : (v.checkOut o a).Within (o + 1) a v₁ := .of_trees htrees
    have hpoisoned : (v₁.tree o).poisoned = false := by
      rw [hinside.poisoned o]
      simpa using h.ready'.2
    refine ⟨w', _, ⟨_, hserve⟩, answers_abort (abort_of_cancel h.ready'.2 hagent hcancel hpoisoned),
      h.settled hG hwithin (((World.within_checkOut o a v).trans hinside).trans
        (World.within_checkIn o a v₁ _)) (hbeside.modify_right o _) hsettled
        (World.settled_checkIn _) ?_⟩
    · rw [hknown, (h.level a).known, hagent, World.agent?_checkIn_self]
      rfl

/-- An inlined tree is suspended in no other. -/
theorem Stands.unlinked (hP : F.Unfolds extent (G.tree o).program t base exit)
    (h : F.Stands extent a w t base exit s s') (link : Link) :
    (G.tree o).awaited s' ≠ some (.subTree link) := by
  induction h with
  | @here t base exit s s' hpaused hcursor _ _ htask =>
    cases hs : s.paused with
    | false => simp [Tree.awaited_unpaused (hpaused.trans hs)]
    | true =>
      obtain ⟨⟨op, yes, no⟩, task, hget, hop⟩ := htask hs
      cases hop
      have hget' := hP.get? hget (by simp)
      rw [← hcursor] at hget'
      simp [Tree.awaited_paused (hpaused.trans hs) hget', Op.moved]
  | inside _ hget hop _ _ _ _ _ ih => exact ih (hP.link hget hop).2

/-- A removal of an agent from a tree is one from its inlined version. -/
theorem InStep.remove (hG : G.Inlines o F roots t) (h : F.InStep G roots t o w v) (a : K) :
    ∃ found w' v', F.Answers (.remove t a) w found w' ∧ G.Answers (.remove o a) v found v' ∧
      F.InStep G roots t o w' v' := by
  obtain ⟨w', hserve, hbeside, hwithin, habsent, hlower⟩ :=
    serve_remove (h.level a).stands h.ready h.beside (Nat.lt_succ_self t)
  have hsettled := World.settled_upto (World.settled_of_absent habsent) hlower
  have hknown := (h.level a).known
  cases hagent : v.agent? o a with
  | none =>
    rw [hagent] at hknown
    rw [hknown] at hserve
    exact ⟨false, w', v, ⟨_, hserve⟩, answers_remove (n := 0) (remove_absent h.ready'.2 hagent),
      h.settled hG hwithin (.of_trees rfl) hbeside hsettled (World.settled_of_absent hagent)
        (by rw [habsent, hagent])⟩
  | some s =>
    rw [hagent] at hknown
    rw [hknown] at hserve
    have hlink := (h.level a).stands.unlinked hG.unfolds
    rw [World.state_of_agent? hagent] at hlink
    have hgone := World.agent?_checkOut_self v o a
    exact ⟨true, w', _, ⟨_, hserve⟩,
      answers_remove (n := 0) (remove_unlinked h.ready'.2 hagent hlink),
      h.settled hG hwithin (World.within_checkOut o a v) (hbeside.modify_right o _) hsettled
        (World.settled_of_absent hgone) (by rw [habsent, hgone])⟩

end Forest

/-! ## Sessions -/

/-- What is done from outside: an operation on an agent of a tree, or a change of its
surroundings. -/
inductive Input (K A : Type) where
  | run (agent : K)
  | abort (agent : K)
  | remove (agent : K)
  | change (registries : Table RegistryId Registry) (ambient : A)

/-- What is answered. -/
inductive Answer where
  | ticked (result : Except RunError Status)
  | removed (found : Bool)
  | nothing
deriving DecidableEq

/-- An answer with the error that linked trees have passed on. -/
def Answer.innermost : Answer → Answer
  | ticked result => ticked (result.mapError RunError.innermost)
  | removed found => removed found
  | nothing => nothing

namespace Forest

variable {F G : Forest K A} {roots : List (Node K A)} {t o : TreeId} {w w' v v' : World K A}

/-- An input to a tree is answered. -/
inductive Acts (F : Forest K A) (t : TreeId) (w : World K A) :
    Input K A → Answer → World K A → Prop where
  | run {a : K} {result : Except RunError Status} {w' : World K A} :
      F.Answers (.run t a) w result w' → Acts F t w (.run a) (.ticked result) w'
  | abort {a : K} {w' : World K A} :
      F.Answers (.abort t a) w () w' → Acts F t w (.abort a) .nothing w'
  | remove {a : K} {found : Bool} {w' : World K A} :
      F.Answers (.remove t a) w found w' → Acts F t w (.remove a) (.removed found) w'
  | change {registries : Table RegistryId Registry} {ambient : A} :
      Acts F t w (.change registries ambient) .nothing
        { w with registries := registries, ambient := ambient }

/-- The inputs to a tree one after the other, and what they are answered. -/
inductive Session (F : Forest K A) (t : TreeId) :
    World K A → List (Input K A) → List Answer → World K A → Prop where
  | start {w : World K A} : Session F t w [] [] w
  | step {w w₁ w' : World K A} {input : Input K A} {inputs : List (Input K A)} {answer : Answer}
      {answers : List Answer} :
      F.Acts t w input answer w₁ → Session F t w₁ inputs answers w' →
      Session F t w (input :: inputs) (answer :: answers) w'

theorem Acts.unique {input : Input K A} {answer answer' : Answer} {w₁ w₂ : World K A}
    (h : F.Acts t w input answer w₁) (h' : F.Acts t w input answer' w₂) :
    answer = answer' ∧ w₁ = w₂ := by
  cases h with
  | run h =>
    cases h' with
    | run h' =>
      obtain ⟨rfl, rfl⟩ := h.unique h'
      exact ⟨rfl, rfl⟩
  | abort h =>
    cases h' with
    | abort h' => exact ⟨rfl, (h.unique h').2⟩
  | remove h =>
    cases h' with
    | remove h' =>
      obtain ⟨rfl, rfl⟩ := h.unique h'
      exact ⟨rfl, rfl⟩
  | change =>
    cases h' with
    | change => exact ⟨rfl, rfl⟩

/-- The inputs decide on the answers. -/
theorem Session.unique {inputs : List (Input K A)} {answers answers' : List Answer}
    {w₁ w₂ : World K A} (h : F.Session t w inputs answers w₁)
    (h' : F.Session t w inputs answers' w₂) : answers = answers' ∧ w₁ = w₂ := by
  induction h generalizing answers' with
  | start =>
    cases h'
    exact ⟨rfl, rfl⟩
  | step hacts _ ih =>
    cases h' with
    | step hacts' hrest' =>
      obtain ⟨rfl, rfl⟩ := hacts.unique hacts'
      obtain ⟨rfl, rfl⟩ := ih hrest'
      exact ⟨rfl, rfl⟩

theorem InStep.change (h : F.InStep G roots t o w v) (registries : Table RegistryId Registry)
    (ambient : A) :
    F.InStep G roots t o { w with registries := registries, ambient := ambient }
      { v with registries := registries, ambient := ambient } :=
  ⟨⟨rfl, rfl, h.beside.deeds⟩, h.ready, h.ready',
    fun a => (h.level a).congr (fun _ _ => rfl) rfl⟩

/-- What is answered by a tree is answered by its inlined version. -/
theorem InStep.acts (hG : G.Inlines o F roots t) (h : F.InStep G roots t o w v)
    {input : Input K A} {answer : Answer} (hacts : F.Acts t w input answer w') :
    ∃ v', G.Acts o v input answer.innermost v' ∧ F.InStep G roots t o w' v' := by
  cases hacts with
  | run hrun =>
    obtain ⟨v', hrun', hstep⟩ := h.run hG hrun
    exact ⟨v', .run hrun', hstep⟩
  | @abort a _ habort =>
    obtain ⟨w₁, v', habort₁, habort', hstep⟩ := h.abort hG a
    obtain ⟨-, rfl⟩ := habort.unique habort₁
    exact ⟨v', .abort habort', hstep⟩
  | @remove a _ _ hremove =>
    obtain ⟨found, w₁, v', hremove₁, hremove', hstep⟩ := h.remove hG a
    obtain ⟨rfl, rfl⟩ := hremove.unique hremove₁
    exact ⟨v', .remove hremove', hstep⟩
  | change => exact ⟨_, .change, h.change _ _⟩

/-- What is answered by the inlined version of a tree is answered by the tree. -/
theorem InStep.acts_ends (hG : G.Inlines o F roots t) (h : F.InStep G roots t o w v)
    {input : Input K A} {answer : Answer} (hacts : G.Acts o v input answer v') :
    ∃ answer w', F.Acts t w input answer w' := by
  cases hacts with
  | run hrun =>
    obtain ⟨result, w', hrun'⟩ := h.run_ends hG hrun
    exact ⟨_, w', .run hrun'⟩
  | @abort a _ _ =>
    obtain ⟨w', _, habort, -⟩ := h.abort hG a
    exact ⟨_, w', .abort habort⟩
  | @remove a _ _ _ =>
    obtain ⟨found, w', _, hremove, -⟩ := h.remove hG a
    exact ⟨_, w', .remove hremove⟩
  | change => exact ⟨_, _, .change⟩

theorem InStep.session (hG : G.Inlines o F roots t) (h : F.InStep G roots t o w v)
    {inputs : List (Input K A)} {answers : List Answer}
    (hsession : F.Session t w inputs answers w') :
    ∃ v', G.Session o v inputs (answers.map Answer.innermost) v' ∧ F.InStep G roots t o w' v' := by
  induction hsession generalizing v with
  | start => exact ⟨v, .start, h⟩
  | step hacts _ ih =>
    obtain ⟨v₁, hacts', hstep⟩ := h.acts hG hacts
    obtain ⟨v', hrest, hlast⟩ := ih hstep
    exact ⟨v', .step hacts' hrest, hlast⟩

theorem InStep.session_ends (hG : G.Inlines o F roots t) (h : F.InStep G roots t o w v)
    {inputs : List (Input K A)} {answers : List Answer}
    (hsession : G.Session o v inputs answers v') :
    ∃ answers w', F.Session t w inputs answers w' := by
  -- The answers of the linked tree decide how its world goes on, which keeps the two in step.
  induction hsession generalizing w with
  | start => exact ⟨[], w, .start⟩
  | step hacts _ ih =>
    obtain ⟨answer, w₁, hacts'⟩ := h.acts_ends hG hacts
    obtain ⟨v₁, hacts₁, hstep⟩ := h.acts hG hacts'
    obtain ⟨-, rfl⟩ := hacts.unique hacts₁
    obtain ⟨answers, w', hrest⟩ := ih hstep
    exact ⟨_, w', .step hacts' hrest⟩

theorem inStep_of_fresh (hG : G.Inlines o F roots t) (hw : ∀ u ≤ t, w.Fresh u) (hv : v.Fresh o)
    (hbeside : w.Beside v) : F.InStep G roots t o w v := by
  refine ⟨hbeside, fun u hu => (hw u hu).ready, hv.ready, fun a => ?_⟩
  have hown := World.settled_of_absent (hv.absent a)
  have hstands := hG.settled (fun u hu => World.settled_of_absent ((hw u hu).absent a)) hown.1
    hown.2
  exact ⟨hstands.1, hstands.2, by rw [(hw t (Nat.le_refl t)).absent a, hv.absent a]⟩

/-- On fresh trees, a session on a tree that delegates is one on its inlined version: where
one ends so does the other, with the same answers and the same deeds. -/
theorem session_inlined (hG : G.Inlines o F roots t) (hw : ∀ u ≤ t, w.Fresh u) (hv : v.Fresh o)
    (hbeside : w.Beside v) (inputs : List (Input K A)) :
    (∀ {answers w'}, F.Session t w inputs answers w' →
      ∃ v', G.Session o v inputs (answers.map Answer.innermost) v' ∧ w'.Beside v') ∧
    ∀ {answers' v'}, G.Session o v inputs answers' v' →
      ∃ answers w', F.Session t w inputs answers w' ∧ answers' = answers.map Answer.innermost ∧
        w'.Beside v' := by
  have hstep := inStep_of_fresh hG hw hv hbeside
  refine ⟨fun hsession => ?_, fun hsession => ?_⟩
  · obtain ⟨v', hsession', hlast⟩ := hstep.session hG hsession
    exact ⟨v', hsession', hlast.beside⟩
  · obtain ⟨answers, w', hsession₁⟩ := hstep.session_ends hG hsession
    obtain ⟨v₁, hsession', hlast⟩ := hstep.session hG hsession₁
    obtain ⟨rfl, rfl⟩ := hsession.unique hsession'
    exact ⟨answers, w', hsession₁, rfl, hlast.beside⟩

/-- A tree that links to another twice, is suspended in it and then aborted. -/
theorem session_inlined_aborted :
    let wait : RunnableTask Unit Unit :=
      ⟨"wait", none, fun _ => pure (.ok .running), some fun _ _ => pure ()⟩
    let leaf : Node Unit Unit := .task ⟨"wait", none, some wait.run, wait.finish⟩
    let roots : List (Node Unit Unit) := [leaf, .sequence [.subTree ⟨0, 1⟩, .subTree ⟨0, 1⟩]]
    let F : Forest Unit Unit :=
      ⟨[{ program := ⟨[⟨.task wait, 1, 2⟩]⟩ },
        { program := ⟨[⟨.subTree ⟨0, 1⟩, 1, 3⟩, ⟨.subTree ⟨0, 1⟩, 2, 3⟩]⟩ }]⟩
    let G : Forest Unit Unit :=
      ⟨[{ program := ⟨[⟨.task wait, 1, 3⟩, ⟨.task wait, 2, 3⟩]⟩ }]⟩
    let w : World Unit Unit := { ambient := () }
    G.Inlines 0 F roots 1 ∧ (∀ u ≤ 1, w.Fresh u) ∧ w.Fresh 0 ∧ w.Beside w ∧
      ∃ w' v', F.Session 1 w [.run (), .abort (), .remove ()]
          [.ticked (.ok .running), .nothing, .removed true] w' ∧
        G.Session 0 w [.run (), .abort (), .remove ()]
          [.ticked (.ok .running), .nothing, .removed true] v' ∧ w'.Beside v' ∧
        v'.deeds = [.ran () "wait" (.ok .running), .finished () "wait" .failure] := by
  intro wait leaf roots F G w
  have hwait : wait.Asks Request.Outward :=
    ⟨nofun, fun _ => .done _, fun hfinish _ _ => by cases hfinish; exact .done ()⟩
  have hleaf : leaf.Every (fun kind => NodeKind.LinksBelow 0 kind ∧ kind ≠ .random) :=
    .mk ⟨nofun, nofun⟩ nofun
  have hlink : (Node.subTree ⟨0, 1⟩).Every
      (fun kind : NodeKind Unit Unit => NodeKind.LinksBelow 1 kind ∧ kind ≠ .random) :=
    .mk ⟨fun l hl => by cases hl; decide, nofun⟩ nofun
  have htwice : (Node.sequence [.subTree ⟨0, 1⟩, .subTree ⟨0, 1⟩]).Every
      (fun kind : NodeKind Unit Unit => NodeKind.LinksBelow 1 kind ∧ kind ≠ .random) := by
    refine .mk ⟨nofun, nofun⟩ fun child hmem => ?_
    obtain rfl : child = .subTree ⟨0, 1⟩ := by simpa using hmem
    exact hlink
  have hbuilt : F.Built roots := by
    refine ⟨fun {t root} hroot => ?_, fun {t root} hroot => ?_⟩
    · match t, hroot with
      | 0, hroot => cases hroot; rfl
      | 1, hroot => cases hroot; rfl
      | t + 2, hroot => cases hroot
    · match t, hroot with
      | 0, hroot => cases hroot; exact hleaf.imp fun _ hkind => hkind.1
      | 1, hroot => cases hroot; exact htwice.imp fun _ hkind => hkind.1
      | t + 2, hroot => cases hroot
  have hfixed : ∀ root ∈ roots, root.Every (· ≠ .random) := by
    intro root hmem
    obtain rfl | rfl : root = leaf ∨ root = _ := by simpa [roots] using hmem
    · exact hleaf.imp fun _ hkind => hkind.2
    · exact htwice.imp fun _ hkind => hkind.2
  have hops : ∀ {t j i}, (F.tree t).program.get? j = some i →
      i.op = .task wait ∨ i.op = .subTree ⟨0, 1⟩ := by
    intro t j i hget
    match t, j, hget with
    | 0, 0, hget => cases hget; exact .inl rfl
    | 0, j + 1, hget => cases hget
    | 1, 0, hget => cases hget; exact .inr rfl
    | 1, 1, hget => cases hget; exact .inr rfl
    | 1, j + 2, hget => cases hget
    | t + 2, j, hget => cases hget
  have hdelegates : F.Delegates roots none := by
    refine ⟨hbuilt, hfixed, fun hget => ?_, fun t j task yes no hget => ?_, fun {t} ht => ?_,
      fun {t} ht => ?_⟩
    · rcases hops hget with hop | hop <;> cases hop
    · rcases hops hget with hop | hop <;> cases hop
      exact hwait
    · match t, ht with
      | 0, _ | 1, _ => rfl
    · match t, ht with
      | 0, _ | 1, _ => rfl
  have hG : G.Inlines 0 F roots 1 := ⟨hdelegates, ⟨_, rfl, rfl⟩, rfl⟩
  have hfresh : ∀ u, w.Fresh u := fun u => ⟨⟨rfl, rfl⟩, fun _ => rfl⟩
  have hran := show F.serve 3 (.run 1 ()) w = .done _ _ from rfl
  have hsession : F.Session 1 w [.run (), .abort (), .remove ()]
      [.ticked (.ok .running), .nothing, .removed true] _ :=
    .step (.run ⟨3, hran⟩) (.step (.abort ⟨2, rfl⟩) (.step (.remove ⟨2, rfl⟩) .start))
  obtain ⟨v', hsession', hbeside⟩ :=
    (session_inlined hG (fun u _ => hfresh u) (hfresh 0) (World.Beside.refl w) _).1 hsession
  exact ⟨hG, fun u _ => hfresh u, hfresh 0, .refl w, _, v', hsession, hsession', hbeside,
    hbeside.deeds.symm.trans rfl⟩

end Forest

end TickTree

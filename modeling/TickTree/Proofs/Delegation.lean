import TickTree.Proofs.Meaning
import TickTree.Proofs.Relocation
import TickTree.Proofs.Sealing

/-!
# Delegating is inlining

A tick that delegates to linked trees keeps a cursor in each of them; a tick of the inlined
tree has a single one. What an agent is kept at in a tree, and in the trees it is suspended
in from there, stands for one place in the unfolded program (`Forest.Stands`): the cursors
say where, and of the counters only those that are still read have to agree. What is left
behind in trees the agent is not suspended in does not count.

A tick from there comes to the same in both (`Forest.serve_mirrors`), and where one ends the
other does (`Forest.serve_ends`).
-/

namespace TickTree

variable {K A : Type} [DecidableEq K]

/-! ## Places of agents -/

namespace World

/-- An agent would begin at the first instruction of a tree. -/
def Settled (w : World K A) (t : TreeId) (a : K) : Prop :=
  (w.state t a).cursor = 0 ∧ (w.state t a).paused = false

/-- Nothing keeps a tree from ticking. -/
def Ready (w : World K A) (t : TreeId) : Prop :=
  (w.tree t).running = false ∧ (w.tree t).poisoned = false

/-- Nothing has changed in the trees but what is kept of an agent below a place. -/
structure Within (top : TreeId) (a : K) (w w' : World K A) : Prop where
  running : ∀ u, (w'.tree u).running = (w.tree u).running
  poisoned : ∀ u, (w'.tree u).poisoned = (w.tree u).poisoned
  agent? : ∀ {u b}, ¬ (u < top ∧ b = a) → w'.agent? u b = w.agent? u b

variable {top : TreeId} {a : K} {w w' w'' : World K A}

theorem state_of_trees (h : w'.trees = w.trees) (u : TreeId) (b : K) :
    w'.state u b = w.state u b := by
  rw [World.state, World.state, World.agent?, World.agent?, tree, tree, h]

theorem Within.of_trees (h : w'.trees = w.trees) : Within top a w w' := by
  have htree : ∀ u, w'.tree u = w.tree u := fun u => by rw [tree, tree, h]
  exact ⟨fun u => by rw [htree], fun u => by rw [htree], fun _ => by
    rw [World.agent?, World.agent?, htree]⟩

theorem Within.trans (h : Within top a w w') (h' : Within top a w' w'') : Within top a w w'' :=
  ⟨fun u => (h'.running u).trans (h.running u), fun u => (h'.poisoned u).trans (h.poisoned u),
    fun hne => (h'.agent? hne).trans (h.agent? hne)⟩

theorem Within.mono {top' : TreeId} (h : Within top a w w') (htop : top ≤ top') :
    Within top' a w w' :=
  ⟨h.running, h.poisoned, fun hne => h.agent? fun hlt => hne ⟨Nat.lt_of_lt_of_le hlt.1 htop, hlt.2⟩⟩

theorem Within.ready (h : Within top a w w') (u : TreeId) (hu : w.Ready u) : w'.Ready u :=
  ⟨(h.running u).trans hu.1, (h.poisoned u).trans hu.2⟩

theorem Within.state (h : Within top a w w') {u : TreeId} {b : K} (hne : ¬ (u < top ∧ b = a)) :
    w'.state u b = w.state u b := by
  rw [World.state, World.state, h.agent? hne]

theorem settled_below {t u : TreeId} (hown : w.Settled u a) (hlower : ∀ x < u, w.Settled x a)
    (hbetween : ∀ x, u < x → x < t → w.Settled x a) : ∀ x < t, w.Settled x a := by
  intro x hx
  rcases Nat.lt_trichotomy x u with hxu | rfl | hxu
  · exact hlower x hxu
  · exact hown
  · exact hbetween x hxu hx

theorem Settled.congr {u : TreeId} (h : w.Settled u a) (hsame : w'.state u a = w.state u a) :
    w'.Settled u a := by
  rwa [Settled, hsame]

end World

/-- What is kept of an agent in a tree, and in the trees below it, stands for a place in a
program that holds the tree unfolded. -/
inductive Forest.Stands (F : Forest K A) (extent : TreeId → Nat) (a : K) (w : World K A) :
    TreeId → Nat → (Verdict → Nat) → AgentState → AgentState → Prop where
  | here {t : TreeId} {base : Nat} {exit : Verdict → Nat} {s s' : AgentState} :
      s'.paused = s.paused →
      s'.cursor = (F.tree t).program.moved extent base exit s.cursor →
      (F.tree t).program.Agree ((F.tree t).program.moved extent base exit) s.cursor s s' →
      (s.cursor < (F.tree t).program.length ∨ ∃ v, s.cursor = (F.tree t).program.ends v) →
      (s.paused = true → ∃ i task, (F.tree t).program.get? s.cursor = some i ∧ i.op = .task task) →
      (∀ u < t, w.Settled u a) →
      Stands F extent a w t base exit s s'
  | inside {t : TreeId} {base : Nat} {exit : Verdict → Nat} {s s' : AgentState}
      {i : Instruction Nat K A} {l : Link} :
      s.paused = true →
      (F.tree t).program.get? s.cursor = some i → i.op = .subTree l → l.tree < t →
      (F.tree t).program.Agree ((F.tree t).program.moved extent base exit) s.cursor s s' →
      (∀ u, l.tree < u → u < t → w.Settled u a) →
      (w.state l.tree a).paused = true →
      Stands F extent a w l.tree ((F.tree t).program.moved extent base exit s.cursor)
        (fun v => (F.tree t).program.moved extent base exit (i.exit v.status))
        (w.state l.tree a) s' →
      Stands F extent a w t base exit s s'

namespace Forest

variable {F : Forest K A} {extent : TreeId → Nat} {roots : List (Node K A)}
  {r : Option RegistryId} {P : Program K A} {t : TreeId} {base : Nat} {exit : Verdict → Nat}
  {a : K} {w w' : World K A} {s s' : AgentState}

theorem Stands.paused (h : F.Stands extent a w t base exit s s') : s'.paused = s.paused := by
  induction h with
  | here hpaused => exact hpaused
  | inside hs _ _ _ _ _ hinner _ ih => rw [ih, hs, hinner]

/-- Only what is kept below the tree counts. -/
theorem Stands.congr (h : F.Stands extent a w t base exit s s')
    (hsame : ∀ u < t, w'.state u a = w.state u a) : F.Stands extent a w' t base exit s s' := by
  induction h with
  | here hpaused hcursor hagree hin htask hsettled =>
    exact .here hpaused hcursor hagree hin htask fun u hu => (hsettled u hu).congr (hsame u hu)
  | inside hs hget hop hbelow hagree hbetween hinner _ ih =>
    have hl := hsame _ hbelow
    refine .inside hs hget hop hbelow hagree
      (fun u hlo hhi => (hbetween u hlo hhi).congr (hsame u hhi)) (by rw [hl]; exact hinner) ?_
    rw [hl]
    exact ih fun u hu => hsame u (Nat.lt_trans hu hbelow)

theorem Stands.lt_length (h : F.Stands extent a w t base exit s s') (hpaused : s.paused = true) :
    s.cursor < (F.tree t).program.length := by
  cases h with
  | here _ _ _ _ htask =>
    obtain ⟨i, task, hget, -⟩ := htask hpaused
    exact Program.lt_length_of_get? hget
  | inside _ hget => exact Program.lt_length_of_get? hget

/-- Where a tree stands at no link, nothing below it counts. -/
theorem Stands.other (h : F.Stands extent a w t base exit s s')
    (hlink : ∀ i l, (F.tree t).program.get? s.cursor = some i → i.op ≠ .subTree l) :
    s'.cursor = (F.tree t).program.moved extent base exit s.cursor ∧
      (F.tree t).program.Agree ((F.tree t).program.moved extent base exit) s.cursor s s' ∧
      ∀ u < t, w.Settled u a := by
  cases h with
  | here _ hcursor hagree _ _ hsettled => exact ⟨hcursor, hagree, hsettled⟩
  | inside _ hget hop => exact absurd hop (hlink _ _ hget)

/-- Where a tree stands at a link, the linked tree stands for the same place, whether the
agent is suspended in it or would begin there. -/
theorem Stands.enter (hF : F.Delegates roots r) (ht : t < roots.length)
    (hP : F.Unfolds (extentOf roots) P t base exit)
    (h : F.Stands (extentOf roots) a w t base exit s s') {i : Instruction Nat K A} {l : Link}
    (hget : (F.tree t).program.get? s.cursor = some i) (hop : i.op = .subTree l) :
    F.Stands (extentOf roots) a w l.tree
        ((F.tree t).program.moved (extentOf roots) base exit s.cursor)
        (fun v => (F.tree t).program.moved (extentOf roots) base exit (i.exit v.status))
        (w.state l.tree a) s' ∧
      (w.state l.tree a).cursor < (F.tree l.tree).program.length ∧
      (F.tree t).program.Agree ((F.tree t).program.moved (extentOf roots) base exit) s.cursor s s' ∧
      ∀ u, l.tree < u → u < t → w.Settled u a := by
  have hbelow := (hP.link hget hop).1
  have hl := Nat.lt_trans hbelow ht
  cases h with
  | here hpaused hcursor hagree _ htask hsettled =>
    obtain ⟨hzero, hrest⟩ := hsettled l.tree hbelow
    have hawake : s.paused = false := by
      cases hs : s.paused with
      | false => rfl
      | true =>
        obtain ⟨i', task, hget', hop'⟩ := htask hs
        rw [hget] at hget'
        cases hget'
        rw [hop] at hop'
        cases hop'
    have hpos := hF.length_pos hl
    refine ⟨.here (by rw [hpaused, hawake, hrest]) ?_ ?_ (.inl (by rw [hzero]; exact hpos)) ?_ ?_,
      by rw [hzero]; exact hpos, hagree, fun u _ hu => hsettled u hu⟩
    · rw [hcursor, hzero, Program.moved_zero hpos]
    · rw [hzero]
      exact hF.agree_zero hl _ _ _
    · intro hpaused'
      rw [hrest] at hpaused'
      cases hpaused'
    · exact fun u hu => hsettled u (Nat.lt_trans hu hbelow)
  | inside _ hget' hop' _ hagree hbetween hinner hstands =>
    rw [hget] at hget'
    cases hget'
    rw [hop] at hop'
    cases hop'
    exact ⟨hstands, hstands.lt_length hinner, hagree, hbetween⟩

/-! ## Ticks -/

/-- How a walk through an unfolded program mirrors the tick of a tree: it arrives at the
exit of the tree's status, or it ends as the tick does. -/
inductive Mirrors (F : Forest K A) (extent : TreeId → Nat) (tick' : Tick K A)
    (handler' : Handler K A) (t : TreeId) (base : Nat) (exit : Verdict → Nat) (moving : Prop)
    (g : Frame) (v : World K A) : Except RunError Status → AgentState → World K A → Prop where
  | concluded {verdict : Verdict} {n : Nat} {g' : Frame} {v' w' : World K A} {s : AgentState} :
      tick'.walk handler' n g v = .done (.underway g') v' → (moving → 0 < n) →
      g'.cursor = exit verdict → g'.resumed = false →
      AgentState.KeepsOutside base (base + extent t) g.state g'.state →
      w'.Beside v' → v'.trees = v.trees → s.cursor = 0 → s.paused = false →
      (∀ u < t, w'.Settled u tick'.agent) →
      Mirrors F extent tick' handler' t base exit moving g v (.ok verdict.status) s w'
  | suspended {n : Nat} {s s' : AgentState} {v' w' : World K A} :
      tick'.walk handler' n g v = .done (.ended (.ok .running) s') v' → s.paused = true →
      AgentState.KeepsOutside base (base + extent t) g.state s' →
      w'.Beside v' → v'.trees = v.trees → F.Stands extent tick'.agent w' t base exit s s' →
      Mirrors F extent tick' handler' t base exit moving g v (.ok .running) s w'
  | failed {n : Nat} {e : RunError} {s s' : AgentState} {v' w' : World K A} :
      tick'.walk handler' n g v = .done (.ended (.error e.innermost) s') v' →
      s'.cursor = 0 → s'.paused = false → w'.Beside v' → v'.trees = v.trees →
      s.cursor = 0 → s.paused = false → (∀ u < t, w'.Settled u tick'.agent) →
      Mirrors F extent tick' handler' t base exit moving g v (.error e) s w'

/-- The runs of trees are mirrored where their programs are held unfolded. -/
def MirroredBy (F : Forest K A) (roots : List (Node K A)) (P : Program K A) (tick' : Tick K A)
    (handler handler' : Handler K A) : Prop :=
  ∀ {t base exit g v w r w'}, t < roots.length → F.Unfolds (extentOf roots) P t base exit →
    F.Stands (extentOf roots) tick'.agent w t base exit (w.state t tick'.agent) g.standing →
    (w.state t tick'.agent).cursor < (F.tree t).program.length → (∀ u ≤ t, w.Ready u) →
    w.Beside v → handler (.run t tick'.agent) w = .done r w' →
    F.Mirrors (extentOf roots) tick' handler' t base exit True g v r (w'.state t tick'.agent) w' ∧
      w.Within (t + 1) tick'.agent w'

/-- What mirrors the rest of a tick mirrors all of it, after steps that are mirrored. -/
theorem Mirrors.after {tick' : Tick K A} {handler' : Handler K A} {moving moving' : Prop}
    {g g₁ : Frame} {v v₁ : World K A} {n : Nat} {r : Except RunError Status}
    (hwalk : tick'.walk handler' n g v = .done (.underway g₁) v₁) (hmoved : moving' → 0 < n)
    (hkeeps : AgentState.KeepsOutside base (base + extent t) g.state g₁.state)
    (htrees : v₁.trees = v.trees)
    (h : F.Mirrors extent tick' handler' t base exit moving g₁ v₁ r s w') :
    F.Mirrors extent tick' handler' t base exit moving' g v r s w' := by
  cases h with
  | concluded hrest _ hcursor hresumed hkeeps' hbeside htrees' hzero hrests hsettled =>
    refine .concluded ((Tick.walk_add _ hwalk).trans hrest) (fun hm => ?_) hcursor hresumed
      (hkeeps.trans hkeeps') hbeside (htrees'.trans htrees) hzero hrests hsettled
    have hpos := hmoved hm
    omega
  | suspended hrest hpaused hkeeps' hbeside htrees' hstands =>
    exact .suspended ((Tick.walk_add _ hwalk).trans hrest) hpaused (hkeeps.trans hkeeps') hbeside
      (htrees'.trans htrees) hstands
  | failed hrest hzero' hrests' hbeside htrees' hzero hrests hsettled =>
    exact .failed ((Tick.walk_add _ hwalk).trans hrest) hzero' hrests' hbeside
      (htrees'.trans htrees) hzero hrests hsettled

omit [DecidableEq K] in
theorem resultAt_ends (tick : Tick K A) (v : Verdict) :
    tick.resultAt (tick.tree.program.ends v) = .ok v.status := by
  rw [Tick.resultAt_ends]
  cases v <;> rfl

/-- An instruction that is no link, as it is mirrored. -/
theorem advance_mirrors (hF : F.Delegates roots r) (ht : t < roots.length)
    {tick' : Tick K A} (hP : F.Unfolds (extentOf roots) tick'.tree.program t base exit)
    (hregistry : tick'.tree.registry = r) (hfree : tick'.tree.config.effectiveLimit = none)
    (handler handler' : Handler K A) {f g : Frame} {i : Instruction Nat K A} {v : World K A}
    (hget : (F.tree t).program.get? f.cursor = some i) (hlink : ∀ l, i.op ≠ .subTree l)
    (hcursor : g.cursor = (F.tree t).program.moved (extentOf roots) base exit f.cursor)
    (hresumed : g.resumed = f.resumed)
    (hagree : (F.tree t).program.Agree ((F.tree t).program.moved (extentOf roots) base exit)
      f.cursor f.state g.state) (hbeside : w.Beside v) :
    w.Abreast v (Progress.Along (F.tree t).program
        ((F.tree t).program.moved (extentOf roots) base exit) base (base + extentOf roots t) i f g)
      ((F.tickOf t tick'.agent).advance handler f w) (tick'.advance handler' g v) := by
  have hagent : tick'.agent = (F.tickOf t tick'.agent).agent := rfl
  refine Tick.advance_abreast hagent
    (hregistry.trans (hF.registry ht).symm) (hF.unlimited ht) hfree (hF.embeds ht hP) ?_ hget
    (hP.get? hget hlink) hlink (fun table => hP.fixed hget table) ?_ ?_ hcursor hresumed hagree
    hbeside
  · intro c hop
    exact (Node.sound_of_compile (hF.compiled ht) hget).targets_lt c (by simp [hop, Op.targets])
  · intro q hop
    obtain ⟨op, yes, no⟩ := i
    subst hop
    exact hF.shared hget
  · intro task hop
    obtain ⟨op, yes, no⟩ := i
    subst hop
    exact hF.outward t f.cursor task yes no hget

/-- How a step is mirrored: both walks go on from one place, or the step ends both. -/
inductive Steps (F : Forest K A) (extent : TreeId → Nat) (tick' : Tick K A)
    (handler' : Handler K A) (t : TreeId) (base : Nat) (exit : Verdict → Nat) (g : Frame)
    (v : World K A) : Progress → World K A → Prop where
  | underway {n : Nat} {f₁ g₁ : Frame} {w₁ v₁ : World K A} :
      tick'.walk handler' n g v = .done (.underway g₁) v₁ → 0 < n →
      F.Stands extent tick'.agent w₁ t base exit f₁.standing g₁.standing →
      AgentState.KeepsOutside base (base + extent t) g.state g₁.state → w₁.Beside v₁ →
      v₁.trees = v.trees → Steps F extent tick' handler' t base exit g v (.underway f₁) w₁
  | ended {result : Except RunError Status} {s : AgentState} {w₁ : World K A} :
      (∀ moving, F.Mirrors extent tick' handler' t base exit moving g v result s w₁) →
      Steps F extent tick' handler' t base exit g v (.ended result s) w₁

/-- A step that is no link is made, and is mirrored. -/
theorem fixed_steps (hF : F.Delegates roots r) (ht : t < roots.length) {tick' : Tick K A}
    (hP : F.Unfolds (extentOf roots) tick'.tree.program t base exit)
    (hregistry : tick'.tree.registry = r) (hfree : tick'.tree.config.effectiveLimit = none)
    (handler handler' : Handler K A) {f g : Frame} {i : Instruction Nat K A} {v : World K A}
    (hstands : F.Stands (extentOf roots) tick'.agent w t base exit f.standing g.standing)
    (hget : (F.tree t).program.get? f.cursor = some i) (hlink : ∀ l, i.op ≠ .subTree l)
    (hbeside : w.Beside v) :
    ∃ p w₁, (F.tickOf t tick'.agent).advance handler f w = .done p w₁ ∧ w₁.trees = w.trees ∧
      F.Steps (extentOf roots) tick' handler' t base exit g v p w₁ := by
  obtain ⟨hcursor, hagree, hsettled⟩ := hstands.other fun i' l hget' => by
    rw [show (F.tree t).program.get? f.cursor = _ from hget'] at hget
    cases hget
    exact hlink l
  have habreast := advance_mirrors hF ht hP hregistry hfree handler handler' hget hlink hcursor
    hstands.paused hagree hbeside
  generalize hstep : (F.tickOf t tick'.agent).advance handler f w = o at habreast
  generalize hstep' : tick'.advance handler' g v = o' at habreast
  cases habreast with
  | @done p p' w₁ v₁ halong hbeside₁ htrees htrees' =>
    refine ⟨p, w₁, rfl, htrees, ?_⟩
    have hsettled₁ : ∀ u < t, w₁.Settled u tick'.agent := fun u hu =>
      (hsettled u hu).congr (World.state_of_trees htrees u _)
    cases halong with
    | @underway f₁ g₁ hnext hf₁ hg₁ hcursor₁ hagree₁ hkeeps =>
      refine .underway (Tick.walk_one hstep') Nat.one_pos (.here (hg₁.trans hf₁.symm) hcursor₁
        hagree₁ (hF.next_cases ht hget hnext) (fun hpaused => ?_) hsettled₁) hkeeps hbeside₁ htrees'
      rw [show f₁.resumed = true from hpaused] at hf₁
      cases hf₁
    | @suspended s₁ s₁' task hop hcounters hcounters' =>
      have hagree₁ : (F.tree t).program.Agree _ f.cursor (s₁.suspendAt f.cursor)
          (s₁'.suspendAt g.cursor) := hagree.of_counters hcounters hcounters'
      exact .ended fun _ => .suspended (Tick.walk_one_ended hstep') rfl (.of_eq hcounters') hbeside₁
        htrees' (.here rfl hcursor hagree₁ (.inl (Program.lt_length_of_get? hget))
          (fun _ => ⟨i, task, hget, hop⟩) hsettled₁)
    | @failed e s₁ s₁' he =>
      have hwalk : tick'.walk handler' 1 g v =
          .done (.ended (.error e.innermost) s₁'.rewind) v₁ := by
        rw [he]
        exact Tick.walk_one_ended hstep'
      exact .ended fun _ => .failed hwalk rfl rfl hbeside₁ htrees' rfl rfl hsettled₁

/-- A step at a link ticks the linked tree. -/
theorem advance_subTree {tick : Tick K A} (hfree : tick.tree.config.effectiveLimit = none)
    {handler : Handler K A} {f : Frame} {i : Instruction Nat K A} {l : Link}
    (hget : tick.tree.program.get? f.cursor = some i) (hop : i.op = .subTree l) (w : World K A) :
    tick.advance handler f w =
      (handler (.run l.tree tick.agent) (w.log (.dispatched tick.id tick.agent f.cursor))).bind fun
      | .ok status, w => .done (Tick.follow f (.ofStatus i status, f.state)) w
      | .error e, w => .done (.ended (.error (.subTree f.cursor e)) f.state.rewind)
          (w.log (.linkFailed tick.id tick.agent f.cursor e)) := by
  rw [Tick.advance_of_get? tick handler f hfree hget, Tick.dispatch_subTree _ _ hop]
  cases handler (.run l.tree tick.agent) (w.log (.dispatched tick.id tick.agent f.cursor)) with
  | cutOff w₁ => rfl
  | done result w₁ => cases result <;> rfl

/-- A tree stands at a link as before when the link is dispatched. -/
theorem Stands.dispatched {f : Frame} {l : Link} {v : World K A} (hbelow : l.tree < t)
    (hstands : F.Stands extent a w l.tree base exit (w.state l.tree a) s')
    (hready : ∀ u < t, w.Ready u) (hbeside : w.Beside v) :
    F.Stands extent a (w.log (.dispatched t a f.cursor)) l.tree base exit
        ((w.log (.dispatched t a f.cursor)).state l.tree a) s' ∧
      (∀ u ≤ l.tree, (w.log (.dispatched t a f.cursor)).Ready u) ∧
      (w.log (.dispatched t a f.cursor)).Beside v :=
  ⟨hstands.congr fun _ _ => rfl, fun u hu => hready u (Nat.lt_of_le_of_lt hu hbelow),
    hbeside.log_left rfl⟩

/-- Once a linked tree has concluded, the tree stands where it goes on. -/
theorem Stands.leave {tick' : Tick K A} (hF : F.Delegates roots r) (ht : t < roots.length)
    {i : Instruction Nat K A} {l : Link} {f g g' : Frame} {verdict : Verdict} {w₁ : World K A}
    (hget : (F.tree t).program.get? f.cursor = some i) (hop : i.op = .subTree l)
    (hagree : (F.tree t).program.Agree ((F.tree t).program.moved (extentOf roots) base exit)
      f.cursor f.state g.state)
    (hkeeps : AgentState.KeepsOutside ((F.tree t).program.moved (extentOf roots) base exit f.cursor)
      ((F.tree t).program.moved (extentOf roots) base exit f.cursor + extentOf roots l.tree)
      g.state g'.state)
    (hcursor : g'.cursor =
      (F.tree t).program.moved (extentOf roots) base exit (i.exit verdict.status))
    (hresumed : g'.resumed = false) (hown : w₁.Settled l.tree tick'.agent)
    (hlower : ∀ u < l.tree, w₁.Settled u tick'.agent)
    (hbetween : ∀ u, l.tree < u → u < t → w₁.Settled u tick'.agent) :
    F.Stands (extentOf roots) tick'.agent w₁ t base exit
      (Frame.standing ⟨i.exit verdict.status, false, f.spent + 1, f.state⟩) g'.standing := by
  have hnext : i.exit verdict.status ∈ i.nexts := by
    cases verdict with
    | success => exact .head _
    | failure => exact .tail _ (.head _)
  exact .here hresumed hcursor ((hagree.around hget hop hkeeps).next hget (by simp [hop]) hnext)
    (hF.next_cases ht hget hnext) (fun h => by cases h)
    (World.settled_below hown hlower hbetween)

section

variable {tick' : Tick K A} {handler handler' : Handler K A} {f g : Frame} {v : World K A}
  (hF : F.Delegates roots r) (hregistry : tick'.tree.registry = r)
  (hfree : tick'.tree.config.effectiveLimit = none)
  (hh : F.MirroredBy roots tick'.tree.program tick' handler handler') (ht : t < roots.length)
  (hP : F.Unfolds (extentOf roots) tick'.tree.program t base exit)
  (hstands : F.Stands (extentOf roots) tick'.agent w t base exit f.standing g.standing)
  (hready : ∀ u < t, w.Ready u) (hbeside : w.Beside v)
include hF hh ht hP hstands hready hbeside

/-- A step at a link is mirrored by the walk through what takes its place. -/
theorem link_steps {i : Instruction Nat K A} {l : Link} {p : Progress} {w₁ : World K A}
    (hget : (F.tree t).program.get? f.cursor = some i) (hop : i.op = .subTree l)
    (hstep : (F.tickOf t tick'.agent).advance handler f w = .done p w₁) :
    w.Within t tick'.agent w₁ ∧ F.Steps (extentOf roots) tick' handler' t base exit g v p w₁ := by
  obtain ⟨hbelow, hinner⟩ := hP.link hget hop
  obtain ⟨hstands', hin, hagree, hbetween⟩ := hstands.enter hF ht hP hget hop
  obtain ⟨hlower, hupper, hpos⟩ := hF.moved_bounds ht hP hget
  rw [hop, Op.width] at hupper
  rw [advance_subTree (hF.unlimited ht) hget hop, Outcome.bind_eq_done_iff] at hstep
  obtain ⟨r₁, w₂, hrun, hdone⟩ := hstep
  obtain ⟨hstands₀, hready₀, hbeside₀⟩ := hstands'.dispatched (f := f) hbelow hready hbeside
  obtain ⟨hmirror, hinside⟩ := hh (Nat.lt_trans hbelow ht) hinner hstands₀ hin hready₀
    hbeside₀ hrun
  have hlogged : w.Within t tick'.agent (w.log (.dispatched t tick'.agent f.cursor)) :=
    .of_trees rfl
  have hwithin : w.Within t tick'.agent w₂ := hlogged.trans (hinside.mono hbelow)
  have hbetween₂ : ∀ u, l.tree < u → u < t → w₂.Settled u tick'.agent := fun u hlo hhi =>
    (hbetween u hlo hhi).congr
      (hinside.state fun hlt => absurd hlo (Nat.not_lt.2 (Nat.le_of_lt_succ hlt.1)))
  cases hmirror with
  | @concluded verdict m g' v' _ s₁ hwalk hmoving hcursor hresumed hkeeps hbeside' htrees hzero
      hrests hsettled =>
    have hp : p = .underway ⟨i.exit verdict.status, false, f.spent + 1, f.state⟩ ∧ w₂ = w₁ := by
      cases verdict <;> cases hdone <;> exact ⟨rfl, rfl⟩
    obtain ⟨rfl, rfl⟩ := hp
    have hstands₁ := Stands.leave hF ht hget hop hagree hkeeps hcursor hresumed ⟨hzero, hrests⟩
      hsettled hbetween₂
    exact ⟨hwithin, .underway hwalk (hmoving trivial) hstands₁ (hkeeps.mono hlower hupper) hbeside'
      htrees⟩
  | suspended hwalk hpaused hkeeps hbeside' htrees hstands₁ =>
    cases hdone
    exact ⟨hwithin, .ended fun _ => .suspended hwalk rfl (hkeeps.mono hlower hupper) hbeside' htrees
      (.inside rfl hget hop hbelow (hagree.around hget hop hkeeps) hbetween₂ hpaused hstands₁)⟩
  | failed hwalk hzero' hrests' hbeside' htrees hzero hrests hsettled =>
    cases hdone
    exact ⟨hwithin.trans (.of_trees rfl), .ended fun _ => .failed hwalk hzero' hrests'
      (hbeside'.log_left rfl) htrees rfl rfl
      (World.settled_below ⟨hzero, hrests⟩ hsettled hbetween₂)⟩

include hregistry hfree

/-- A step of a walk is mirrored, if the runs of trees are. -/
theorem advance_steps {i : Instruction Nat K A} {p : Progress} {w₁ : World K A}
    (hget : (F.tree t).program.get? f.cursor = some i)
    (hstep : (F.tickOf t tick'.agent).advance handler f w = .done p w₁) :
    w.Within t tick'.agent w₁ ∧ F.Steps (extentOf roots) tick' handler' t base exit g v p w₁ := by
  by_cases hlink : ∃ l, i.op = .subTree l
  · obtain ⟨l, hop⟩ := hlink
    exact link_steps hF hh ht hP hstands hready hbeside hget hop hstep
  · obtain ⟨_, _, hadvance, htrees, hsteps⟩ := fixed_steps hF ht hP hregistry hfree handler
      handler' hstands hget (fun l hop => hlink ⟨l, hop⟩) hbeside
    rw [hadvance] at hstep
    cases hstep
    exact ⟨.of_trees htrees, hsteps⟩

end

/-- A walk that has left its tree stands at the exit of its result. -/
theorem Stands.arrived {tick' : Tick K A} {handler' : Handler K A} {f g : Frame} {v : World K A}
    (hstands : F.Stands extent tick'.agent w t base exit f.standing g.standing)
    (hget : (F.tree t).program.get? f.cursor = none) (hbeside : w.Beside v) :
    F.Mirrors extent tick' handler' t base exit (f.cursor < (F.tree t).program.length) g v
      ((F.tickOf t tick'.agent).resultAt f.cursor) f.state.rewind w := by
  cases hstands with
  | inside _ hget' =>
    rw [show (F.tree t).program.get? f.cursor = _ from hget'] at hget
    cases hget
  | here hpaused hcursor _ hin htask hsettled =>
    have hawake : f.resumed = false := by
      cases hres : f.resumed with
      | false => rfl
      | true =>
        obtain ⟨i, task, hget', -⟩ := htask hres
        rw [show (F.tree t).program.get? f.cursor = _ from hget'] at hget
        cases hget
    have hout : ¬ f.cursor < (F.tree t).program.length := by
      intro hlt
      rw [Program.get?, List.getElem?_eq_getElem hlt] at hget
      cases hget
    obtain ⟨verdict, hverdict⟩ := hin.resolve_left hout
    have hverdict : f.cursor = (F.tree t).program.ends verdict := hverdict
    have hexit : g.cursor = exit verdict := by
      rw [show g.cursor = (F.tree t).program.moved extent base exit f.cursor from hcursor,
        hverdict, Program.moved_ends]
    have hresult : (F.tickOf t tick'.agent).resultAt f.cursor = .ok verdict.status := by
      rw [hverdict]
      exact resultAt_ends (F.tickOf t tick'.agent) verdict
    rw [hresult]
    exact .concluded (Tick.walk_zero tick' handler' g v) (fun hlt => absurd hlt hout) hexit
      (Eq.trans (show g.resumed = f.resumed from hpaused) hawake) (fun _ _ => rfl) hbeside rfl rfl
      rfl hsettled

/-- The walk of a tree is mirrored, if the runs of trees are. -/
theorem walk_mirrors (hF : F.Delegates roots r) {tick' : Tick K A}
    (hregistry : tick'.tree.registry = r) (hfree : tick'.tree.config.effectiveLimit = none)
    {handler handler' : Handler K A}
    (hh : F.MirroredBy roots tick'.tree.program tick' handler handler') (ht : t < roots.length)
    (hP : F.Unfolds (extentOf roots) tick'.tree.program t base exit) {n : Nat} {f g : Frame}
    {v : World K A} {result : Except RunError Status}
    (hstands : F.Stands (extentOf roots) tick'.agent w t base exit f.standing g.standing)
    (hready : ∀ u < t, w.Ready u) (hbeside : w.Beside v)
    (h : (F.tickOf t tick'.agent).walk handler n f w = .done (.ended result s) w') :
    F.Mirrors (extentOf roots) tick' handler' t base exit (f.cursor < (F.tree t).program.length)
        g v result s w' ∧
      w.Within t tick'.agent w' := by
  induction n generalizing f g w v with
  | zero => cases h
  | succ n ih =>
    rw [Tick.walk_succ, Outcome.bind_eq_done_iff] at h
    obtain ⟨p, w₁, hstep, hrest⟩ := h
    cases hget : (F.tree t).program.get? f.cursor with
    | none =>
      rw [Tick.advance, hget] at hstep
      cases hstep
      cases hrest
      exact ⟨hstands.arrived hget hbeside, .of_trees rfl⟩
    | some i =>
      obtain ⟨hwithin, hsteps⟩ := advance_steps hF hregistry hfree hh ht hP hstands hready hbeside
        hget hstep
      cases hsteps with
      | underway hwalk hpos hstands₁ hkeeps hbeside₁ htrees =>
        obtain ⟨hmirror, hwithin₁⟩ := ih hstands₁ (fun u hu => hwithin.ready u (hready u hu))
          hbeside₁ hrest
        exact ⟨hmirror.after hwalk (fun _ => hpos) hkeeps htrees, hwithin.trans hwithin₁⟩
      | ended hmirror =>
        cases hrest
        exact ⟨hmirror _, hwithin⟩

/-! ## Runs -/

/-- What comes after a tick, and changes nothing that counts, is mirrored with it. -/
theorem Mirrors.congr {tick' : Tick K A} {handler' : Handler K A} {moving moving' : Prop}
    {g : Frame} {v w'' : World K A} {result : Except RunError Status} (hmoving : moving' → moving)
    (hstate : ∀ u < t, w''.state u tick'.agent = w'.state u tick'.agent)
    (hbeside : ∀ v', w'.Beside v' → w''.Beside v')
    (h : F.Mirrors extent tick' handler' t base exit moving g v result s w') :
    F.Mirrors extent tick' handler' t base exit moving' g v result s w'' := by
  cases h with
  | concluded hwalk hmoved hcursor hresumed hkeeps hbeside' htrees hzero hrests hsettled =>
    exact .concluded hwalk (fun hm => hmoved (hmoving hm)) hcursor hresumed hkeeps
      (hbeside _ hbeside') htrees hzero hrests fun u hu => (hsettled u hu).congr (hstate u hu)
  | suspended hwalk hpaused hkeeps hbeside' htrees hstands =>
    exact .suspended hwalk hpaused hkeeps (hbeside _ hbeside') htrees (hstands.congr hstate)
  | failed hwalk hzero' hrests' hbeside' htrees hzero hrests hsettled =>
    exact .failed hwalk hzero' hrests' (hbeside _ hbeside') htrees hzero hrests
      fun u hu => (hsettled u hu).congr (hstate u hu)

/-- An agent that is ticked in a tree, from where the tick begins to where it has ended. -/
theorem within_of_walk {result : Except RunError Status} {w₁ : World K A}
    (h : ((w.enter t a).checkOut t a).Within t a w₁) (hready : w.Ready t) (s : AgentState) :
    w.Within (t + 1) a ((w₁.checkIn t a s).leave t a result) := by
  have htree : ∀ u, t ≠ u → ((w.enter t a).checkOut t a).tree u = w.tree u := fun u htu => by
    rw [World.tree_checkOut_of_ne _ a htu, World.tree_enter_of_ne w a htu]
  have htree' : ∀ u, t ≠ u → ((w₁.checkIn t a s).leave t a result).tree u = w₁.tree u :=
    fun u htu => by rw [World.tree_leave_of_ne _ a result htu, World.tree_checkIn_of_ne _ a s htu]
  refine ⟨fun u => ?_, fun u => ?_, fun {u b} hne => ?_⟩
  · by_cases htu : t = u
    · subst htu
      simp [hready.1]
    · rw [htree' u htu, h.running, htree u htu]
  · by_cases htu : t = u
    · subst htu
      have hpoisoned := h.poisoned t
      simpa using hpoisoned
    · rw [htree' u htu, h.poisoned, htree u htu]
  · have hne' : ¬ (t = u ∧ a = b) := by
      rintro ⟨rfl, rfl⟩
      exact hne ⟨Nat.lt_succ_self t, rfl⟩
    have hbelow : ¬ (u < t ∧ b = a) := fun hlt => hne ⟨Nat.lt_succ_of_lt hlt.1, hlt.2⟩
    rw [World.agent?_leave, World.agent?_checkIn, if_neg hne', h.agent? hbelow,
      World.agent?_checkOut, if_neg hne', World.agent?_enter]

/-- Where a tick begins, everything stands as before. -/
theorem Stands.begin {v : World K A}
    (hstands : F.Stands extent a w t base exit (w.state t a) s') (hready : ∀ u ≤ t, w.Ready u)
    (hbeside : w.Beside v) :
    F.Stands extent a ((w.enter t a).checkOut t a) t base exit (Frame.begin (w.state t a)).standing
        s' ∧
      (∀ u < t, ((w.enter t a).checkOut t a).Ready u) ∧
      ((w.enter t a).checkOut t a).Beside v := by
  refine ⟨hstands.congr fun u hu => ?_, fun u hu => ?_,
    ((hbeside.modify_left t _).log_left rfl).modify_left t _⟩
  · rw [World.state, World.agent?_checkOut, if_neg (fun heq => Nat.ne_of_gt hu heq.1),
      World.agent?_enter, World.state]
  · rw [World.Ready, World.tree_checkOut_of_ne _ _ (Nat.ne_of_gt hu),
      World.tree_enter_of_ne w _ (Nat.ne_of_gt hu)]
    exact hready u (Nat.le_of_lt hu)

/-- The run of a tree is mirrored, if the runs of linked trees are. -/
theorem run_mirrors (hF : F.Delegates roots r) {tick' : Tick K A}
    (hregistry : tick'.tree.registry = r) (hfree : tick'.tree.config.effectiveLimit = none)
    {handler handler' : Handler K A}
    (hh : F.MirroredBy roots tick'.tree.program tick' handler handler') (n : Nat) :
    F.MirroredBy roots tick'.tree.program tick' (fun c w => F.answer handler n c w) handler' := by
  intro t base exit g v w result w' ht hP hstands hin hready hbeside h
  have hready_t := hready t (Nat.le_refl t)
  obtain ⟨hstands₀, hready₀, hbeside₀⟩ := hstands.begin hready hbeside
  have hmirrors : ∀ {result s w₁}, (F.tickOf t tick'.agent).perform handler n
      (w.state t tick'.agent) ((w.enter t tick'.agent).checkOut t tick'.agent) =
        .done (result, s) w₁ → _ := fun hperform =>
    walk_mirrors hF hregistry hfree hh ht hP hstands₀ hready₀ hbeside₀
      (Tick.walk_of_perform hin hperform)
  cases run_cases h with
  | refused hrunning => simp [hready_t.1] at hrunning
  | poisoned _ hpoisoned => simp [hready_t.2] at hpoisoned
  | @lost answer w₁ _ _ hperform hlost =>
    have hpoisoned := (hmirrors hperform).2.poisoned t
    rw [hlost] at hpoisoned
    simp [hready_t.2] at hpoisoned
  | @ticked _ s w₁ _ _ hperform _ =>
    obtain ⟨hmirror, hwithin⟩ := hmirrors hperform
    have hkept : ((w₁.checkIn t tick'.agent s).leave t tick'.agent result).state t tick'.agent =
        s := World.state_of_agent? (World.agent?_ticked w₁ t tick'.agent s result)
    rw [hkept]
    refine ⟨hmirror.congr (fun _ => hin) (fun u hu => ?_) (fun v' hv => ?_),
      within_of_walk hwithin hready_t s⟩
    · rw [World.state, World.agent?_leave, World.agent?_checkIn,
        if_neg (fun heq => Nat.ne_of_gt hu heq.1), World.state]
    · exact ((hv.modify_left t _).modify_left t _).log_left rfl

/-- In a forest that delegates, ticks are mirrored. -/
theorem serve_mirrors (hF : F.Delegates roots r) {tick' : Tick K A}
    (hregistry : tick'.tree.registry = r) (hfree : tick'.tree.config.effectiveLimit = none)
    (n : Nat) (handler' : Handler K A) :
    F.MirroredBy roots tick'.tree.program tick' (F.serve n) handler' := by
  induction n with
  | zero =>
    intro t base exit g v w result w' _ _ _ _ _ _ h
    cases h
  | succ n ih => exact run_mirrors hF hregistry hfree ih n

/-! ## Ends -/

/-- The runs of the trees below a place end where walks that mirror them have ended after
so many steps. -/
def EndsBy (F : Forest K A) (roots : List (Node K A)) (P : Program K A) (tick' : Tick K A)
    (handler handler' : Handler K A) (top : TreeId) (bound : Nat) : Prop :=
  ∀ {t base exit g v w n result s v'}, t < top → F.Unfolds (extentOf roots) P t base exit →
    F.Stands (extentOf roots) tick'.agent w t base exit (w.state t tick'.agent) g.standing →
    (w.state t tick'.agent).cursor < (F.tree t).program.length → (∀ u ≤ t, w.Ready u) →
    w.Beside v → n ≤ bound → tick'.walk handler' n g v = .done (.ended result s) v' →
    ∃ r w', handler (.run t tick'.agent) w = .done r w'

/-- Every step of the walk of a tree is made, if a walk that mirrors it ends. -/
theorem advance_ends (hF : F.Delegates roots r) {tick' : Tick K A}
    (hregistry : tick'.tree.registry = r) (hfree : tick'.tree.config.effectiveLimit = none)
    {handler handler' : Handler K A} (ht : t < roots.length)
    (hP : F.Unfolds (extentOf roots) tick'.tree.program t base exit) {bound n : Nat}
    (hends : F.EndsBy roots tick'.tree.program tick' handler handler' t bound) {f g : Frame}
    {v v' : World K A} {result : Except RunError Status} (hn : n ≤ bound)
    (hstands : F.Stands (extentOf roots) tick'.agent w t base exit f.standing g.standing)
    (hready : ∀ u < t, w.Ready u) (hbeside : w.Beside v)
    (h : tick'.walk handler' n g v = .done (.ended result s') v') {i : Instruction Nat K A}
    (hget : (F.tree t).program.get? f.cursor = some i) :
    ∃ p w₁, (F.tickOf t tick'.agent).advance handler f w = .done p w₁ := by
  by_cases hlink : ∃ l, i.op = .subTree l
  · obtain ⟨l, hop⟩ := hlink
    obtain ⟨hbelow, hinner⟩ := hP.link hget hop
    obtain ⟨hstands', hin, -, -⟩ := hstands.enter hF ht hP hget hop
    obtain ⟨hstands₀, hready₀, hbeside₀⟩ := hstands'.dispatched (f := f) hbelow hready hbeside
    obtain ⟨r₁, w₂, hrun⟩ := hends hbelow hinner hstands₀ hin hready₀ hbeside₀ hn h
    rw [advance_subTree (hF.unlimited ht) hget hop, hrun]
    cases r₁ <;> exact ⟨_, _, rfl⟩
  · obtain ⟨p, w₁, hadvance, -, -⟩ := fixed_steps hF ht hP hregistry hfree handler handler' hstands
      hget (fun l hop => hlink ⟨l, hop⟩) hbeside
    exact ⟨p, w₁, hadvance⟩

/-- The walk of a tree ends within as many steps as one that mirrors it, and one more for
where it arrives. -/
theorem walk_ends (hF : F.Delegates roots r) {tick' : Tick K A}
    (hregistry : tick'.tree.registry = r) (hfree : tick'.tree.config.effectiveLimit = none)
    {handler handler' : Handler K A}
    (hh : F.MirroredBy roots tick'.tree.program tick' handler handler') (ht : t < roots.length)
    (hP : F.Unfolds (extentOf roots) tick'.tree.program t base exit) {bound : Nat}
    (hends : F.EndsBy roots tick'.tree.program tick' handler handler' t bound) {n k : Nat}
    {f g : Frame} {v v' : World K A} {result : Except RunError Status} (hn : n ≤ bound)
    (hk : n < k)
    (hstands : F.Stands (extentOf roots) tick'.agent w t base exit f.standing g.standing)
    (hready : ∀ u < t, w.Ready u) (hbeside : w.Beside v)
    (h : tick'.walk handler' n g v = .done (.ended result s') v') :
    ∃ result s w', (F.tickOf t tick'.agent).walk handler k f w = .done (.ended result s) w' := by
  -- One step at a link is many steps of the inlined walk, so the induction is a strong one.
  induction n using Nat.strongRecOn generalizing k f g w v with
  | ind n ih =>
    obtain ⟨k, rfl⟩ : ∃ m, k = m + 1 := ⟨k - 1, by omega⟩
    rw [Tick.walk_succ]
    cases hget : (F.tree t).program.get? f.cursor with
    | none =>
      rw [Tick.advance, hget]
      exact ⟨_, _, _, rfl⟩
    | some i =>
      obtain ⟨p, w₁, hstep⟩ := advance_ends hF hregistry hfree ht hP hends hn hstands hready hbeside
        h hget
      obtain ⟨hwithin, hsteps⟩ := advance_steps hF hregistry hfree hh ht hP hstands hready hbeside
        hget hstep
      rw [hstep]
      cases hsteps with
      | @underway m f₁ g₁ _ v₁ hwalk hpos hstands₁ _ hbeside₁ _ =>
        have hmn : m < n := Nat.lt_of_not_le fun hle => Tick.walk_ne_ended hwalk hle _ _ _ h
        obtain ⟨d, rfl⟩ : ∃ d, n = m + d := ⟨n - m, by omega⟩
        rw [Tick.walk_add d hwalk] at h
        exact ih d (by omega) (k := k) (by omega) (by omega) hstands₁
          (fun u hu => hwithin.ready u (hready u hu)) hbeside₁ h
      | ended => exact ⟨_, _, _, rfl⟩

/-- In a forest that delegates, a tick ends where a walk that mirrors it does. -/
theorem serve_ends (hF : F.Delegates roots r) {tick' : Tick K A}
    (hregistry : tick'.tree.registry = r) (hfree : tick'.tree.config.effectiveLimit = none)
    {handler' : Handler K A} {n : Nat} (ht : t < roots.length)
    (hP : F.Unfolds (extentOf roots) tick'.tree.program t base exit) {g : Frame} {v v' : World K A}
    (hstands : F.Stands (extentOf roots) tick'.agent w t base exit (w.state t tick'.agent)
      g.standing)
    (hin : (w.state t tick'.agent).cursor < (F.tree t).program.length) (hready : ∀ u ≤ t, w.Ready u)
    (hbeside : w.Beside v) {result : Except RunError Status}
    (h : tick'.walk handler' n g v = .done (.ended result s') v') {bound : Nat}
    (hbound : t + n + 2 ≤ bound) :
    ∃ r w', F.serve bound (.run t tick'.agent) w = .done r w' := by
  -- What is left of the inlined walk also ends the walks of linked trees, one tree further down.
  induction bound generalizing t base exit w g v v' n result s' with
  | zero => exact absurd hbound (Nat.not_le.2 (Nat.succ_pos _))
  | succ bound ih =>
    have hready_t := hready t (Nat.le_refl t)
    obtain ⟨hstands₀, hready₀, hbeside₀⟩ := hstands.begin hready hbeside
    have hlower : F.EndsBy roots tick'.tree.program tick' (F.serve bound) handler' t n := by
      intro u base' exit' g' v₁ w₁ m result' s₁ v₁' hu hP' hstands' hin' hready' hbeside' hm h'
      have hsum : ∀ {x y m n b : Nat}, x < y → m ≤ n → y + n + 2 ≤ b + 1 → x + m + 2 ≤ b := by
        omega
      exact ih (Nat.lt_trans hu ht) hP' hstands' hin' hready' hbeside' h' (hsum hu hm hbound)
    have hh : F.MirroredBy roots tick'.tree.program tick' (F.serve bound) handler' :=
      serve_mirrors hF hregistry hfree bound handler'
    have hn : n < bound := by
      have hsum : ∀ {x n b : Nat}, x + n + 2 ≤ b + 1 → n < b := by omega
      exact hsum hbound
    obtain ⟨result₁, s₁, w₁, hwalk⟩ := walk_ends hF hregistry hfree hh ht hP hlower (Nat.le_refl n)
      hn hstands₀ hready₀ hbeside₀ h
    obtain ⟨-, hwithin⟩ := walk_mirrors hF hregistry hfree hh ht hP hstands₀ hready₀ hbeside₀ hwalk
    have hpoisoned := hwithin.poisoned t
    exact ⟨_, _, run_of_perform hready_t.1 hready_t.2 (Tick.perform_of_walk hin hwalk)
      (by simpa [hready_t.2] using hpoisoned)⟩

end Forest

end TickTree

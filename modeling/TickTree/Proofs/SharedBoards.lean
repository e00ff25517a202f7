import TickTree.Proofs.Poisoning
import TickTree.Proofs.Recording

/-!
# Shared boards

A registry is shared by all who hold it: callers, hooks and the queries of trees. Whoever asks, it
answers as one map from names to boards (`Forest.Uses.plays`), and a query of a shared board tests
the entry of this map. With the first edit that dies on one of its boards it is poisoned for ever.

A query of a poisoned registry is an error, and no missing board. The error ends the tick that has
come to the query, and with it the ticks along whose links it was reached, one after the other from
the inside out (`Forest.Arrives.answers`). Each adds where its link stands, and is left with its
agent at the beginning. Only trees that are poisoned themselves meanwhile answer just this, and
drop what the tick has made of the agent (`Forest.shared_boards_unwrapped`). Ticks that come to no
such query do not notice (`Forest.Does.unseen`). All this is `Forest.shared_boards`.
-/

namespace TickTree

variable {K A : Type}

/-! ## Callers and ticks in turn -/

section

variable [DecidableEq K]

/-- Callers ask a registry and have operations done, in any order. The accesses are those of the
callers and those that the hooks of each operation write down, in their order. -/
inductive Forest.Uses (F : Forest K A) (r : RegistryId) :
    World K A → List Registry.Access → World K A → Prop where
  | nil {w : World K A} : Uses F r w [] w
  | command {w w' : World K A} {es : List Registry.Access} (c : Registry.Command) :
      Uses F r (w.setRegistry r ((w.registry r).answer c).2) es w' →
      Uses F r w (⟨c, ((w.registry r).answer c).1⟩ :: es) w'
  | elsewhere {w w' : World K A} {es : List Registry.Access} {x : RegistryId}
      (c : Registry.Command) : x ≠ r →
      Uses F r (w.setRegistry x ((w.registry x).answer c).2) es w' → Uses F r w es w'
  | ambient {w w' : World K A} {es : List Registry.Access} (value : A) :
      Uses F r { w with ambient := value } es w' → Uses F r w es w'
  | operation {c : Call K} {reply : c.Reply} {w w₁ w' : World K A}
      {ds es : List Registry.Access} :
      (F.recording r).Answers c (w.recorded []) reply (w₁.recorded ds) → Uses F r w₁ es w' →
      Uses F r w (ds ++ es) w'

namespace Forest

variable {F : Forest K A} {r : RegistryId} {w w' : World K A} {c : Call K} {reply : c.Reply}

/-- What is answered is answered when hooks write down. -/
theorem Answers.recording (h : F.Answers c w reply w') (r : RegistryId) :
    ∃ es, (F.recording r).Answers c (w.recorded []) reply (w'.recorded es) := by
  obtain ⟨n, hserve⟩ := h
  have hrecords := F.serve_records (r := r) n c w (w.recorded []) (.of .nil)
  rw [hserve] at hrecords
  obtain ⟨v, hv, hw'⟩ := hrecords.done_inv
  cases hw' with
  | of => exact ⟨_, n, hv⟩

/-- What is answered when hooks write down is answered, and they write a history. -/
theorem Answers.recorded {v : World K (A × List Registry.Access)}
    (h : (F.recording r).Answers c (w.recorded []) reply v) :
    ∃ w' es, v = w'.recorded es ∧ F.Answers c w reply w' ∧
      Registry.Plays (w.registry r).map? es (w'.registry r).map? := by
  obtain ⟨n, hserve⟩ := h
  have hrecords := F.serve_records (r := r) n c w (w.recorded []) (.of .nil)
  rw [hserve] at hrecords
  generalize hplain : F.serve n c w = o at hrecords
  cases hrecords with
  | done hrecords =>
    cases hrecords with
    | of hplays => exact ⟨_, _, rfl, ⟨n, hplain⟩, hplays⟩

/-- A registry is one map, whoever uses it. -/
theorem Uses.plays {es : List Registry.Access} (h : F.Uses r w es w') :
    Registry.Plays (w.registry r).map? es (w'.registry r).map? := by
  induction h with
  | nil => exact .nil
  | @command w w' es c _ ih =>
    rw [World.registry_setRegistry, if_pos rfl] at ih
    exact (Registry.plays_answer (w.registry r) c).append ih
  | elsewhere c hne _ ih => rwa [World.registry_setRegistry, if_neg hne] at ih
  | ambient value _ ih => exact ih
  | operation hanswers _ ih =>
    obtain ⟨v, es, hv, -, hplays⟩ := hanswers.recorded
    obtain ⟨rfl, rfl⟩ := World.recorded_inj hv
    exact hplays.append ih

end Forest

/-! ## Queries -/

/-- A query of a shared board tests the entry of the map. -/
theorem Tick.dispatch_shared (tick : Tick K A) (handler : Handler K A) {i : Instruction Nat K A}
    {q : Query} {name : String} {r : RegistryId} {w : World K A} {m : Registry.BoardMap}
    (hop : i.op = .query q) (hboard : q.board = .shared name)
    (hregistry : tick.tree.registry = some r) (hm : (w.registry r).map? = some m)
    (index : Nat) (resumed : Bool) (s : AgentState) :
    ∃ w', tick.dispatch handler index resumed i s w =
      .done (.goto (if (m name).any q.holdsOn then i.onSuccess else i.onFail), s) w' := by
  have hread : (w.registry r).read name = .ok (m name) := by
    cases hpoisoned : (w.registry r).poisoned with
    | true => simp [Registry.map?_eq_none_iff.2 hpoisoned] at hm
    | false =>
      rw [Registry.map?, hpoisoned] at hm
      cases hm
      simp [Registry.read, hpoisoned]
  have hfind : q.find s.board (tick.tree.registry.map w.registry) =
      .ok ((m name).map q.holdsOn) := by
    simp only [Query.find, hboard, hregistry, Option.map_some, hread]
  cases hname : m name with
  | none =>
    rw [hname] at hfind
    exact ⟨_, by simp only [dispatch, hop, hfind, Option.map_none]; rfl⟩
  | some board =>
    rw [hname, Option.map_some] at hfind
    cases hholds : q.holdsOn board with
    | true =>
      rw [hholds] at hfind
      exact ⟨w, by simp only [dispatch, hop, hfind, Option.any_some, hholds, if_true]⟩
    | false =>
      rw [hholds] at hfind
      exact ⟨w, by simp only [dispatch, hop, hfind, Option.any_some, hholds]; rfl⟩

/-- A query of a poisoned registry is an error. -/
theorem Query.find_poisoned {q : Query} {name : String} {r : Registry}
    (hboard : q.board = .shared name) (h : r.poisoned = true) (own : Blackboard) :
    q.find own (some r) = .error .poisoned := by
  simp [Query.find, hboard, Registry.read, h]

/-! ## The way out -/

/-- What an error comes to on its way out along links, given which trees are poisoned. -/
def RunError.outward (poisoned : TreeId → Bool) (links : List (TreeId × Nat)) (e : RunError) :
    RunError :=
  links.foldr (fun link e => if poisoned link.1 then .poisoned else .subTree link.2 e) e

/-- Since a world these trees have ended their ticks for an agent with an error. -/
structure World.Unwound (a : K) (trees : List TreeId) (w w' : World K A) : Prop where
  poisoned : ∀ t, (w'.tree t).poisoned = (w.tree t).poisoned
  journal : ∃ es, w'.journal = es ++ w.journal ∧ ∀ e ∈ es, ∀ t b board key,
    e ≠ .boardMissing t b board key
  agents : ∀ t ∈ trees, (w.tree t).poisoned = false →
    ∃ s, w'.agent? t a = some s ∧ s.standing = (0, false)

namespace World.Unwound

variable {a : K} {trees : List TreeId} {w w' : World K A} {t : TreeId}

theorem refl (a : K) (w : World K A) : Unwound a [] w w := ⟨fun _ => rfl, ⟨[], rfl, nofun⟩, nofun⟩

theorem log (h : Unwound a trees w w') {e : Event K}
    (he : ∀ t b board key, e ≠ .boardMissing t b board key) : Unwound a trees w (w'.log e) := by
  obtain ⟨es, hes, hall⟩ := h.journal
  exact ⟨h.poisoned, ⟨e :: es, congrArg (e :: ·) hes, List.forall_mem_cons.2 ⟨he, hall⟩⟩, h.agents⟩

theorem leave (h : Unwound a trees w w') (t : TreeId) (r : Except RunError Status) :
    Unwound a trees w (w'.leave t a r) := by
  have hended : Unwound a trees w (w'.modifyTree t fun s => { s with running := false }) :=
    { h with
      poisoned := fun u => (project_modifyTree w' t (p := (·.poisoned))
        (f := fun s => { s with running := false }) (fun _ => rfl) u).trans (h.poisoned u)
      agents := fun u hu hsound => by
        rw [agent?_modifyTree w' t (f := fun s => { s with running := false }) fun _ => rfl]
        exact h.agents u hu hsound }
  exact hended.log nofun

/-- A tree that is poisoned is owed nothing. -/
theorem dropped (h : Unwound a trees w w') (hpoisoned : (w.tree t).poisoned = true) :
    Unwound a (t :: trees) w w' :=
  { h with
    agents := List.forall_mem_cons.2
      ⟨fun hsound => absurd (hpoisoned.symm.trans hsound) Bool.noConfusion, h.agents⟩ }

/-- Any other keeps the agent at its beginning. -/
theorem checkIn (h : Unwound a trees w w') (t : TreeId) {s : AgentState}
    (hs : s.standing = (0, false)) : Unwound a (t :: trees) w (w'.checkIn t a s) where
  poisoned u := (project_modifyTree w' t (p := (·.poisoned))
    (f := fun y => { y with agents := y.agents.set a s }) (fun _ => rfl) u).trans (h.poisoned u)
  journal := h.journal
  agents := by
    refine List.forall_mem_cons.2 ⟨fun _ => ⟨s, agent?_checkIn_self w' t a s, hs⟩,
      fun u hu hsound => ?_⟩
    rw [agent?_checkIn]
    split
    · exact ⟨s, rfl, hs⟩
    · exact h.agents u hu hsound

end World.Unwound

namespace Forest

variable {F : Forest K A} {r : RegistryId} {a : K} {t u : TreeId} {w x : World K A}

/-- A tick whose last step ends it with an error answers the error and rewinds the agent, unless its
tree has been poisoned meanwhile. -/
theorem Stage.ends_unwound {m bound : Nat} {f : Frame} {v v' : World K A} {e : RunError}
    {trees : List TreeId} (hidle : (w.tree t).running = false)
    (hsound : (w.tree t).poisoned = false)
    (hcursor : (w.state t a).cursor < (F.tree t).program.length) (h : F.Stage t a w m f v)
    (hend : (F.tickOf t a).advance (F.serve bound) f v =
      .done (.ended (.error e) f.state.rewind) v')
    (hv' : World.Unwound a trees x v') :
    ∃ w', F.Answers (.run t a) w (.error (if (x.tree t).poisoned then .poisoned else e)) w' ∧
      World.Unwound a (t :: trees) x w' := by
  cases hpoisoned : (x.tree t).poisoned with
  | true =>
    exact ⟨_, h.drops hidle hsound hcursor hend ((hv'.poisoned t).trans hpoisoned),
      (hv'.dropped hpoisoned).leave t _⟩
  | false =>
    exact ⟨_, h.concludes hidle hsound hcursor hend ((hv'.poisoned t).trans hpoisoned),
      (hv'.checkIn t rfl).leave t _⟩

/-- A tick of an agent in a tree comes along links to a query of a shared board, in another tree
and in a later world. The links are given by the instructions at which they are followed, outermost
first. -/
inductive Arrives (F : Forest K A) (r : RegistryId) (a : K) :
    TreeId → World K A → List (TreeId × Nat) → TreeId → World K A → Prop where
  | query {t : TreeId} {w v : World K A} {m : Nat} {f : Frame} :
      (w.tree t).running = false → (w.tree t).poisoned = false → F.Stage t a w m f v →
      (F.tickOf t a).exhausted f = none → (F.tree t).ReadsAt f.cursor r → Arrives F r a t w [] t v
  | link {t u : TreeId} {w v x : World K A} {m : Nat} {f : Frame} {i : Instruction Nat K A}
      {link : Link} {links : List (TreeId × Nat)} :
      (w.tree t).running = false → (w.tree t).poisoned = false → F.Stage t a w m f v →
      (F.tickOf t a).exhausted f = none → (F.tree t).program.get? f.cursor = some i →
      i.op = .subTree link →
      Arrives F r a link.tree (v.log (.dispatched t a f.cursor)) links u x →
      Arrives F r a t w ((t, f.cursor) :: links) u x

/-- A tick that comes to a query of a poisoned registry fails, and so do those around it. -/
theorem Arrives.answers {links : List (TreeId × Nat)} (h : F.Arrives r a t w links u x)
    (hpoisoned : (x.registry r).poisoned = true) :
    ∃ w', F.Answers (.run t a) w
        (.error (RunError.outward (fun y => (x.tree y).poisoned) links .poisoned)) w' ∧
      World.Unwound a (links.map Prod.fst ++ [u]) x w' := by
  induction h with
  | @query t w v m f hidle hsound hstage hfree hreads =>
    obtain ⟨i, q, name, hget, hop, hboard, hregistry⟩ := hreads
    have hget' : (F.tickOf t a).tree.program.get? f.cursor = some i := hget
    have hfind : q.find f.state.board ((F.tickOf t a).tree.registry.map
        (v.log (.dispatched t a f.cursor)).registry) = .error .poisoned := by
      rw [show (F.tickOf t a).tree.registry = some r from hregistry]
      exact Query.find_poisoned hboard hpoisoned _
    have hend : (F.tickOf t a).advance (F.serve 0) f v =
        .done (.ended (.error .poisoned) f.state.rewind)
          ((v.log (.dispatched t a f.cursor)).log (.boardUnavailable t a f.cursor .poisoned)) := by
      simp only [Tick.advance, hget', hfree, Tick.dispatch, hop, hfind]
      rfl
    have hdispatched : World.Unwound a [] v (v.log (.dispatched t a f.cursor)) :=
      (World.Unwound.refl a v).log (by simp)
    have hfails :=
      hstage.ends_unwound hidle hsound (hstage.begun hget) hend (hdispatched.log (by simp))
    rwa [ite_self] at hfails
  | @link t u w v x m f i link links hidle hsound hstage hfree hget hop _ ih =>
    obtain ⟨w₁, hanswers, hunwound⟩ := ih hpoisoned
    obtain ⟨bound, hend⟩ := advance_linkFailed hget hop hfree hanswers
    exact hstage.ends_unwound hidle hsound (hstage.begun hget) hend (hunwound.log (by simp))

/-! ## Shared boards over whole runs -/

/-- A registry that callers and the hooks and queries of trees share:

* a forest comes to the same whether its hooks write down what they ask of the registry or not;
* whatever callers and hooks ask of it, in whatever order, is a history of one map;
* a query of a shared board tests the entry of this map, and fails where there is none;
* after the first edit that dies on a board everything is denied, and the registry is poisoned from
  then on, whatever is done;
* a tick that comes to a query of the poisoned registry, through any number of links, fails with an
  error that tells each of these links; it rewinds the agent in all trees on the way and takes no
  board to be missing. A tree on the way that is itself poisoned by then answers just that, and
  drops what the tick has made of the agent;
* an operation that comes to no such query, in a forest whose hooks do not use the registry, comes
  to the same whatever the registry is, and leaves it alone. -/
theorem shared_boards (F : Forest K A) (r : RegistryId) :
    (∀ {c w reply w'}, F.Answers c w reply w' →
      ∃ es, (F.recording r).Answers c (w.recorded []) reply (w'.recorded es)) ∧
    (∀ {c w reply v}, (F.recording r).Answers c (w.recorded []) reply v →
      ∃ w' es, v = w'.recorded es ∧ F.Answers c w reply w') ∧
    (∀ {w es w'}, F.Uses r w es w' →
      Registry.Plays (w.registry r).map? es (w'.registry r).map?) ∧
    (∀ {t a i q name w m}, (F.tree t).registry = some r → i.op = .query q →
      q.board = .shared name → (w.registry r).map? = some m → ∀ handler index resumed s,
        ∃ w', (F.tickOf t a).dispatch handler index resumed i s w =
          .done (.goto (if (m name).any q.holdsOn then i.onSuccess else i.onFail), s) w') ∧
    (∀ {w earlier name edit later w'},
      F.Uses r w (earlier ++ ⟨.update name edit, .ok (some .died)⟩ :: later) w' →
      (∀ e ∈ later, e.reply = e.command.denial) ∧
        ∀ x, World.Shifts w' x → (x.registry r).poisoned = true) ∧
    (∀ {t a w links u x}, F.Arrives r a t w links u x → (x.registry r).poisoned = true →
      ∃ w', F.Answers (.run t a) w
          (.error (RunError.outward (fun y => (x.tree y).poisoned) links .poisoned)) w' ∧
        World.Unwound a (links.map Prod.fst ++ [u]) x w') ∧
    (F.Asks (Request.InSight (.butRegistry r)) → ∀ {n d}, F.Does n d →
      ¬ World.Logs (fun e => ∃ t a index, e = .dispatched t a index ∧ (F.tree t).ReadsAt index r)
        d.before d.after →
      ∀ registry, ∃ v' inner,
        F.Does n (.mk d.call d.reply (d.before.setRegistry r registry) v' inner) ∧
        World.Alongside (.butRegistry r) d.before (d.before.setRegistry r registry)
          d.after v') := by
  refine ⟨fun hanswers => hanswers.recording r, fun hanswers => ?_, Uses.plays,
    fun hregistry hop hboard hm handler index resumed s => ?_, fun huses => ?_, Arrives.answers,
    fun hF n d hdoes hreads registry => ?_⟩
  · obtain ⟨w', es, hv, hanswers, -⟩ := hanswers.recorded
    exact ⟨w', es, hv, hanswers⟩
  · exact Tick.dispatch_shared _ handler hop hboard hregistry hm index resumed s
  · obtain ⟨hnone, hdenied⟩ := huses.plays.after_death
    have hpoisoned := Registry.map?_eq_none_iff.1 hnone
    exact ⟨hdenied, fun x hx => by rw [hx.registry hpoisoned, hpoisoned]⟩
  · exact hdoes.unseen hF (fun _ _ => trivial)
      (fun hlogs => hreads (hlogs.mono fun _ => notices_butRegistry))
      (.of_setRegistry d.before r registry)

/-- A board is registered, an edit of it by a task dies, and it is denied to whoever reads it. A
tick that follows a link to a query of it fails; a tick of another forest, with nothing to query,
comes to the same after the registry is poisoned. -/
theorem shared_boards_poisoned :
    let die : Edit := fun _ => none
    let edits : Hook Unit Unit TaskResult :=
      .ask (.registry 0 (.update "s" die)) fun _ => .done (.ok .success)
    let q : Query := ⟨.shared "s", "k", .isSet⟩
    let F : Forest Unit Unit :=
      ⟨[{ program := ⟨[⟨.query q, 1, 2⟩]⟩, registry := some 0 },
        { program := ⟨[⟨.subTree ⟨0, 1⟩, 1, 2⟩]⟩ },
        { program := ⟨[⟨.task ⟨"edits", none, fun _ => edits, none⟩, 1, 2⟩]⟩ }]⟩
    let G : Forest Unit Unit := ⟨[{ program := ⟨[⟨.hangingSucceed, 1, 2⟩]⟩ }]⟩
    let w : World Unit Unit := { ambient := () }
    (∃ w', F.Uses 0 w [⟨.register "s" ∅, .ok none⟩, ⟨.update "s" die, .ok (some .died)⟩,
        ⟨.read "s", .error .poisoned⟩] w' ∧ (w'.registry 0).poisoned = true ∧
      ∃ x v, F.Arrives 0 () 1 w' [(1, 0)] 0 x ∧
        F.Answers (.run 1 ()) w' (.error (.subTree 0 .poisoned)) v ∧
        World.Unwound () [1, 0] x v) ∧
    ∃ v inner, G.Does 3 (.mk (.run 0 ()) (.ok .success) (w.setRegistry 0 ⟨∅, true⟩) v inner) := by
  intro die edits q F G w
  let w₀ := w.setRegistry 0 ((w.registry 0).answer (.register "s" ∅)).2
  obtain ⟨w₁, hedits, hdead, hquery, hlink⟩ : ∃ w₁,
      (F.recording 0).Answers (.run 2 ()) (w₀.recorded []) (.ok .success)
        (w₁.recorded [⟨.update "s" die, .ok (some .died)⟩]) ∧
      (w₁.registry 0).poisoned = true ∧ w₁.tree 0 = {} ∧ w₁.tree 1 = {} :=
    ⟨(F.serve 4 (.run 2 ()) w₀).state, ⟨4, rfl⟩, rfl, rfl, rfl⟩
  have hread : ((w₁.registry 0).answer (.read "s")).1 = .error .poisoned :=
    Registry.answer_denied hdead _
  have hreads := Uses.command (F := F) (r := 0) (w := w₁) (.read "s") .nil
  rw [hread] at hreads
  generalize hw₂ : w₁.setRegistry 0 ((w₁.registry 0).answer (.read "s")).2 = w₂ at hreads
  have hafter := Uses.operation hedits hreads
  have huses : F.Uses 0 w ([⟨.register "s" ∅, .ok none⟩] ++
      ⟨.update "s" die, .ok (some .died)⟩ :: [⟨.read "s", .error .poisoned⟩]) w₂ :=
    .command (.register "s" ∅) hafter
  obtain ⟨-, -, -, -, hdeath, hfails, -⟩ := shared_boards F 0
  have hpoisoned := (hdeath huses).2
  have houter : w₂.tree 1 = {} := by rw [← hw₂, World.tree_setRegistry, hlink]
  have hinner : w₂.tree 0 = {} := by rw [← hw₂, World.tree_setRegistry, hquery]
  have hlinked : ((w₂.enter 1 ()).checkOut 1 ()).tree 0 = {} := by
    rw [World.tree_checkOut_of_ne _ _ (by decide), World.tree_enter_of_ne _ _ (by decide), hinner]
  obtain ⟨x, harrives, hx, hsound⟩ : ∃ x, F.Arrives 0 () 1 w₂ [(1, 0)] 0 x ∧
      World.Shifts w₂ x ∧ (x.tree 1).poisoned = false := by
    refine ⟨_, .link (by rw [houter]) (by rw [houter]) (.anew (by rw [World.agent?, houter]; rfl))
      rfl rfl rfl (.query (by rw [World.tree_log, hlinked]) (by rw [World.tree_log, hlinked])
        (.anew (by rw [World.agent?, World.tree_log, hlinked]; rfl)) rfl
        ⟨_, q, "s", rfl, rfl, rfl, rfl⟩), ?_, ?_⟩
    · exact ((((World.shifts_enter w₂ 1 ()).trans (World.shifts_checkOut _ 1 ())).tail
        (.logged _)).trans (World.shifts_enter _ 0 ())).trans (World.shifts_checkOut _ 0 ())
    · rw [World.tree_checkOut_of_ne _ _ (by decide), World.tree_enter_of_ne _ _ (by decide),
        World.tree_log, World.tree_checkOut, World.tree_enter, houter]
  obtain ⟨v, hanswers, hunwound⟩ := hfails harrives (hpoisoned x hx)
  simp only [RunError.outward, List.foldr, hsound] at hanswers
  have hG : ∀ {t index i}, (G.tree t).program.get? index = some i → i.op = .hangingSucceed := by
    rintro (_ | t) (_ | index) i hget
    · cases hget
      rfl
    · cases hget
    · cases hget
    · cases hget
  obtain ⟨-, -, -, -, -, -, hothers⟩ := shared_boards G 0
  have hsuccess : G.Does 3 (.mk (.run 0 ()) (.ok .success) w _ []) := .done
  have hasks : G.Asks (Request.InSight (.butRegistry 0)) := by
    intro t index task yes no hget
    cases hG hget
  obtain ⟨v', inner, hdoes, -⟩ := hothers hasks hsuccess (by
    rintro ⟨_, _, _, _, t, a, index, _, i, q, name, hget, hop, _⟩
    rw [hG hget] at hop
    cases hop) ⟨∅, true⟩
  exact ⟨⟨w₂, huses, hpoisoned w₂ .refl, x, v, harrives, hanswers, hunwound⟩, v', inner, hdoes⟩

/-- A task poisons the tree that has followed a link to its own, and the query behind it finds the
registry poisoned. The outer tick does not tell the link, and the outer tree shows no agent. -/
theorem shared_boards_unwrapped :
    let die : Edit := fun _ => none
    let edits : Hook Unit Unit TaskResult :=
      .ask (.call (.update 1 () die)) fun _ => .done (.ok .success)
    let q : Query := ⟨.shared "s", "k", .isSet⟩
    let F : Forest Unit Unit :=
      ⟨[{ program := ⟨[⟨.task ⟨"edits", none, fun _ => edits, none⟩, 1, 3⟩, ⟨.query q, 2, 3⟩]⟩,
          registry := some 0 },
        { program := ⟨[⟨.subTree ⟨0, 2⟩, 1, 2⟩]⟩ }]⟩
    let w : World Unit Unit := { ambient := () }
    ∃ w' v x, F.Uses 0 w [⟨.register "s" ∅, .ok none⟩, ⟨.update "s" die, .ok (some .died)⟩] w' ∧
      F.Arrives 0 () 1 w' [(1, 0)] 0 x ∧ F.Answers (.run 1 ()) w' (.error .poisoned) v ∧
      (v.view 1 ()).cursor = none ∧
      ¬ ∃ v', F.Answers (.run 1 ()) w' (.error (.subTree 0 .poisoned)) v' := by
  intro die edits q F w
  let w₁ := w.setRegistry 0 ((w.registry 0).answer (.register "s" ∅)).2
  let w' := w₁.setRegistry 0 ((w₁.registry 0).answer (.update "s" die)).2
  have huses : F.Uses 0 w [⟨.register "s" ∅, .ok none⟩, ⟨.update "s" die, .ok (some .died)⟩] w' :=
    .command (.register "s" ∅) (.command (.update "s" die) .nil)
  have hanswers : F.Answers (.run 1 ()) w' (.error .poisoned) (F.serve 5 (.run 1 ()) w').state :=
    ⟨5, rfl⟩
  refine ⟨w', _, _, huses, .link rfl rfl .begin rfl rfl rfl (.query rfl rfl
    (.next .begin (show (F.tickOf 0 ()).advance (F.serve 2) _ _ = _ from rfl)) rfl
      ⟨_, q, "s", rfl, rfl, rfl, rfl⟩), hanswers, rfl, ?_⟩
  rintro ⟨v', hwrapped⟩
  exact nomatch (hwrapped.unique hanswers).1

end Forest

end

end TickTree

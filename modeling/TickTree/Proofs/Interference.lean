import TickTree.Proofs.Privacy

/-!
# Agents do not interfere

Where operations are private, one for another agent is as good as none
(`Forest.Answers.sameFor`), and one for the same agent is answered the same in worlds that are
the same for the agent (`Forest.Answers.transfer`). So what an agent is answered, what hooks
are called for it and what the trees hold of it can be told from its own operations
(`Forest.performs_alone`). The one thing of another agent that it can meet with is an edit that
died, for that takes the tree with it (`Forest.performs_not_alone_died`).
-/

namespace TickTree

variable {K A : Type} [DecidableEq K] {a : K} {o : Outlook}

/-! ## Worlds that are the same for an agent -/

/-- Whether an event is a call of a hook for an agent. -/
def Event.isHookCall (a : K) : Event K → Bool
  | .started _ b .. | .ran _ b .. | .finished _ b .. => b = a
  | _ => false

theorem Event.agent?_of_isHookCall {e : Event K} (h : e.isHookCall a = true) :
    e.agent? = some a := by
  cases e <;> simp_all [isHookCall, agent?]

/-- The calls of hooks for an agent so far, in all trees, oldest first. -/
def World.hookCalls (a : K) (w : World K A) : List (Event K) :=
  w.history.filter (·.isHookCall a)

/-- Two worlds are the same for an agent. -/
structure World.SameFor (a : K) (w v : World K A) : Prop where
  outlook : w.outlook a = v.outlook a
  hookCalls : w.hookCalls a = v.hookCalls a

namespace World

variable {w v u : World K A} {es : List (Event K)}

theorem SameFor.refl (a : K) (w : World K A) : SameFor a w w := ⟨rfl, rfl⟩

theorem SameFor.symm (h : SameFor a w v) : SameFor a v w :=
  ⟨h.outlook.symm, h.hookCalls.symm⟩

theorem SameFor.trans (h : SameFor a w v) (h' : SameFor a v u) : SameFor a w u :=
  ⟨h.outlook.trans h'.outlook, h.hookCalls.trans h'.hookCalls⟩

theorem Turn.hookCalls {b : K} (h : Turn b o es w v) (a : K) :
    v.hookCalls a = w.hookCalls a ++ es.reverse.filter (·.isHookCall a) := by
  simp [World.hookCalls, history, h.journal]

/-- A turn of another agent that leaves alone what is shared. -/
theorem Turn.sameFor {b : K} (h : Turn b o es w v) (hes : ∀ e ∈ es, e.agent? = some b)
    (hab : a ≠ b) (hshared : (w.outlook b).Alike o) : SameFor a v w := by
  obtain rfl := h.outlook
  constructor
  · simp only [World.outlook, Outlook.mk.injEq]
    refine ⟨funext fun t => ?_, hshared.registries⟩
    have hrunning : (v.tree t).running = (w.tree t).running := hshared.running t
    have hpoisoned : (v.tree t).poisoned = (w.tree t).poisoned := hshared.poisoned t
    rw [hrunning, hpoisoned, h.others t a hab]
  · have hnone : es.reverse.filter (·.isHookCall a) = [] := by
      refine List.filter_eq_nil_iff.2 fun e he hcall => hab ?_
      have hagent := hes e (List.mem_reverse.1 he)
      rw [Event.agent?_of_isHookCall hcall] at hagent
      exact Option.some.inj hagent
    rw [h.hookCalls, hnone, List.append_nil]

end World

/-! ## Operations one after the other -/

namespace Forest

variable {F : Forest K A} {w w' v : World K A} {c d : Call K}

/-- Operations are answered one after the other. -/
inductive Performs (F : Forest K A) :
    World K A → List ((c : Call K) × c.Reply) → World K A → Prop where
  | nil {w : World K A} : Performs F w [] w
  | cons {c : Call K} {r : c.Reply} {w v w' : World K A} {l : List ((c : Call K) × c.Reply)} :
      F.Answers c w r v → Performs F v l w' → Performs F w (⟨c, r⟩ :: l) w'

/-- For an agent, an operation for another is as good as none. -/
theorem Answers.sameFor (hF : ∀ t, (F.tree t).program.Private) {r : c.Reply}
    (h : F.Answers c w r w') (hac : a ≠ c.agent) (hlives : ¬ c.Died r) : w'.SameFor a w := by
  obtain ⟨n, hn⟩ := h
  cases serve_private hF c.agent n c (w.outlook c.agent) rfl with
  | cutOff hcut =>
    obtain ⟨v, hv⟩ := hcut w rfl
    rw [hn] at hv
    cases hv
  | done hshared hes hdone =>
    obtain ⟨v, hv, hturn⟩ := hdone w rfl
    rw [hn] at hv
    cases hv
    exact hturn.sameFor hes hac (hshared hlives)

/-- In worlds that are the same for an agent, an operation for it is answered the same. -/
theorem Answers.transfer (hF : ∀ t, (F.tree t).program.Private) {r : c.Reply}
    (h : F.Answers c w r w') (hsame : w.SameFor c.agent v) :
    ∃ v', F.Answers c v r v' ∧ w'.SameFor c.agent v' := by
  obtain ⟨n, hn⟩ := h
  cases serve_private hF c.agent n c (w.outlook c.agent) rfl with
  | cutOff hcut =>
    obtain ⟨w₁, hw₁⟩ := hcut w rfl
    rw [hn] at hw₁
    cases hw₁
  | done _ _ hdone =>
    obtain ⟨w₁, hw₁, hturn⟩ := hdone w rfl
    obtain ⟨v', hv', hturn'⟩ := hdone v hsame.outlook.symm
    rw [hn] at hw₁
    cases hw₁
    refine ⟨v', ⟨n, hv'⟩, hturn.outlook.trans hturn'.outlook.symm, ?_⟩
    rw [hturn.hookCalls, hturn'.hookCalls, hsame.hookCalls]

/-- The operations for an agent, done alone from a world that is the same for it. -/
theorem Performs.alone (hF : ∀ t, (F.tree t).program.Private)
    {l : List ((c : Call K) × c.Reply)} (h : F.Performs w l w')
    (hlives : ∀ p ∈ l, p.1.agent ≠ a → ¬ p.1.Died p.2) (hsame : w.SameFor a v) :
    ∃ v', F.Performs v (l.filter fun p => p.1.agent = a) v' ∧ w'.SameFor a v' := by
  induction h generalizing v with
  | nil => exact ⟨v, .nil, hsame⟩
  | @cons c r w u w' l hanswers _ ih =>
    obtain ⟨hhead, hrest⟩ := List.forall_mem_cons.1 hlives
    by_cases hown : c.agent = a
    · subst hown
      obtain ⟨v₁, hanswers', hsame₁⟩ := hanswers.transfer hF hsame
      obtain ⟨v', hperforms, hlast⟩ := ih hrest hsame₁
      refine ⟨v', ?_, hlast⟩
      simp only [List.filter_cons, decide_true, if_true]
      exact .cons hanswers' hperforms
    · have hskip := hanswers.sameFor hF (Ne.symm hown) (hhead hown)
      obtain ⟨v', hperforms, hlast⟩ := ih hrest (hskip.trans hsame)
      refine ⟨v', ?_, hlast⟩
      simpa [List.filter_cons, hown] using hperforms

/-- Two operations for different agents, the other way round. -/
theorem Answers.swap (hF : ∀ t, (F.tree t).program.Private) {r : c.Reply} {s : d.Reply}
    (hne : c.agent ≠ d.agent) (h : F.Answers c w r v) (h' : F.Answers d v s w')
    (hlives : ¬ c.Died r) (hlives' : ¬ d.Died s) :
    ∃ v₁ w₁, F.Answers d w s v₁ ∧ F.Answers c v₁ r w₁ ∧ ∀ a, w'.SameFor a w₁ := by
  obtain ⟨v₁, hd, hsame⟩ := h'.transfer hF (h.sameFor hF hne.symm hlives)
  obtain ⟨w₁, hc, hsame'⟩ := h.transfer hF (hd.sameFor hF hne hlives').symm
  refine ⟨v₁, w₁, hd, hc, fun a => ?_⟩
  by_cases hac : a = c.agent
  · subst hac
    exact (h'.sameFor hF hne hlives').trans hsame'
  · have hlast := (hc.sameFor hF hac hlives).symm
    by_cases had : a = d.agent
    · subst had
      exact hsame.trans hlast
    · exact ((h'.sameFor hF had hlives').trans (h.sameFor hF hac hlives)).trans
        ((hd.sameFor hF had hlives').symm.trans hlast)

/-- In a forest of private hooks without random branches agents do not interfere, as long as
no edit dies. Of any operations that are answered, those for one agent are answered the same
without the others, with the same hook calls for the agent, and leave the same of it in every
tree; and what is answered next is the same. Operations for different agents commute. -/
theorem performs_alone (hF : ∀ t, (F.tree t).program.Private) :
    (∀ {a w l w'}, F.Performs w l w' → (∀ p ∈ l, p.1.agent ≠ a → ¬ p.1.Died p.2) →
      ∃ v', F.Performs w (l.filter fun p => p.1.agent = a) v' ∧
        (∀ t, w'.agent? t a = v'.agent? t a) ∧ w'.hookCalls a = v'.hookCalls a ∧
        ∀ c r, c.agent = a → ((∃ u, F.Answers c w' r u) ↔ ∃ u, F.Answers c v' r u)) ∧
    ∀ {c d : Call K} {r s w v w'}, c.agent ≠ d.agent → F.Answers c w r v → F.Answers d v s w' →
      ¬ c.Died r → ¬ d.Died s → ∃ v₁ w₁, F.Answers d w s v₁ ∧ F.Answers c v₁ r w₁ ∧
        ∀ a, (∀ t, w'.agent? t a = w₁.agent? t a) ∧ w'.hookCalls a = w₁.hookCalls a := by
  have hagents : ∀ {a} {w v : World K A}, w.SameFor a v → ∀ t, w.agent? t a = v.agent? t a :=
    fun hsame t => World.agent?_of_outlook hsame.outlook t
  constructor
  · intro a w l w' h hlives
    obtain ⟨v', hperforms, hsame⟩ := h.alone hF hlives (.refl a w)
    refine ⟨v', hperforms, hagents hsame, hsame.hookCalls, fun c r hc => ?_⟩
    subst hc
    constructor
    · rintro ⟨u, hanswers⟩
      obtain ⟨u', hanswers', -⟩ := hanswers.transfer hF hsame
      exact ⟨u', hanswers'⟩
    · rintro ⟨u, hanswers⟩
      obtain ⟨u', hanswers', -⟩ := hanswers.transfer hF hsame.symm
      exact ⟨u', hanswers'⟩
  · intro c d r s w v w' hne h h' hlives hlives'
    obtain ⟨v₁, w₁, hd, hc, hsame⟩ := h.swap hF hne h' hlives hlives'
    exact ⟨v₁, w₁, hd, hc, fun a => ⟨hagents (hsame a), (hsame a).hookCalls⟩⟩

/-- Two agents at a task that marks its board and waits, and an edit of the second one's. -/
theorem performs_alone_marked :
    let mark : Hook Bool Unit TaskResult :=
      .ask .board fun b =>
        .ask (.setBoard (b.set "seen" (.bool true))) fun _ => .done (.ok .running)
    let F : Forest Bool Unit :=
      ⟨[{ program := ⟨[⟨.task ⟨"mark", none, fun _ => mark, none⟩, 1, 2⟩]⟩ }]⟩
    let w : World Bool Unit := { ambient := () }
    let own : List ((c : Call Bool) × c.Reply) :=
      [⟨.run 0 true, .ok .running⟩, ⟨.abort 0 true, ()⟩]
    (∀ t, (F.tree t).program.Private) ∧ ∃ w' v',
      F.Performs w [⟨.run 0 true, .ok .running⟩, ⟨.run 0 false, .ok .running⟩,
        ⟨.update 0 false some, .ok (.edited (.ofList [("seen", .bool true)]))⟩,
        ⟨.abort 0 true, ()⟩] w' ∧
      F.Performs w own v' ∧ (∀ t, w'.agent? t true = v'.agent? t true) ∧
      w'.hookCalls true = v'.hookCalls true ∧
      ∃ v₁ w₁, F.Answers (.run 0 false) w (.ok .running) v₁ ∧
        F.Answers (.run 0 true) v₁ (.ok .running) w₁ := by
  intro mark F w own
  have hmark : mark.Asks Request.Private :=
    .ask trivial fun _ => .ask trivial fun _ => .done _
  have hF : ∀ t, (F.tree t).program.Private := by
    intro t
    refine ⟨fun {index i task} hget hop => ?_, fun {index i table} hget hop => ?_⟩
    · match t, index, hget with
      | 0, 0, hget =>
        cases hget
        cases hop
        exact ⟨nofun, fun _ => hmark, nofun⟩
      | 0, index + 1, hget | t + 1, index, hget => cases hget
    · match t, index, hget with
      | 0, 0, hget => cases hget; cases hop
      | 0, index + 1, hget | t + 1, index, hget => cases hget
  have hperforms : F.Performs w [⟨.run 0 true, .ok .running⟩, ⟨.run 0 false, .ok .running⟩,
      ⟨.update 0 false some, .ok (.edited (.ofList [("seen", .bool true)]))⟩,
      ⟨.abort 0 true, ()⟩] _ :=
    .cons ⟨2, rfl⟩ (.cons ⟨2, rfl⟩ (.cons ⟨1, rfl⟩ (.cons ⟨1, rfl⟩ .nil)))
  obtain ⟨halone, hswap⟩ := performs_alone hF
  obtain ⟨v', hown, hagents, hcalls, -⟩ := halone (a := true) hperforms (by
    simp [Call.Died, Call.agent])
  have hfirst : F.Answers (.run 0 true) w (.ok .running) _ := ⟨2, rfl⟩
  obtain ⟨v₁, w₁, hfalse, htrue, -⟩ := hswap (d := .run 0 false) (s := .ok .running) (by decide)
    hfirst ⟨2, rfl⟩ id id
  exact ⟨hF, _, v', hperforms, hown, hagents, hcalls, v₁, w₁, hfalse, htrue⟩

/-- The edit of one agent dies, and another agent is answered otherwise than alone. -/
theorem performs_not_alone_died :
    let F : Forest Bool Unit := ⟨[{ program := ⟨[⟨.hangingSucceed, 1, 2⟩]⟩ }]⟩
    let w : World Bool Unit := { ambient := () }
    (∀ t, (F.tree t).program.Private) ∧ ∃ w' v',
      F.Performs w [⟨.update 0 true fun _ => none, .ok .died⟩,
        ⟨.run 0 false, .error .poisoned⟩] w' ∧
      F.Performs w [⟨.run 0 false, .ok .success⟩] v' := by
  intro F w
  refine ⟨fun t => ⟨fun {index i task} hget hop => ?_, fun {index i table} hget hop => ?_⟩,
    _, _, .cons ⟨1, rfl⟩ (.cons ⟨1, rfl⟩ .nil), .cons ⟨3, rfl⟩ .nil⟩
  all_goals
    match t, index, hget with
    | 0, 0, hget => cases hget; cases hop
    | 0, index + 1, hget | t + 1, index, hget => cases hget

end Forest

end TickTree

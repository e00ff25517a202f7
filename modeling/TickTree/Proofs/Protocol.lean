import TickTree.Proofs.Carrying

/-!
# The protocol of task hooks

Over any operations, on any trees of a forest whose hooks operate on no tree, the hook
calls of each agent in each tree tell a story (`Forest.story_of_chronicle`): visits that
are over, one after the other, and at most one that is open. A visit is open exactly when
the agent is suspended on a task in the tree, and it is to that task.

Ticks go on with stories; aborts and removals cut them short along the chain of trees in
which the agent is suspended (`Forest.Reaches`).
-/

namespace TickTree

variable {K A : Type} [DecidableEq K]

namespace Forest

variable {F : Forest K A} {handler : Handler K A} {t u : TreeId} {a b : K} {w w' : World K A}

/-! ## Aborts and removals -/

/-- An abort or a removal of an agent reaches a tree from another, along the trees in which
the agent is suspended. -/
inductive Reaches (F : Forest K A) (b : K) : World K A → TreeId → TreeId → Prop where
  | here {w : World K A} {u : TreeId} {s : AgentState} :
      (w.tree u).poisoned = false → w.agent? u b = some s → Reaches F b w u u
  | link {w : World K A} {u t : TreeId} {s : AgentState} {link : Link} :
      (w.tree u).poisoned = false → w.agent? u b = some s →
      (F.tree u).awaited s = some (.subTree link) →
      Reaches F b (w.checkOut u b) link.tree t → Reaches F b w u t

theorem Reaches.inv (h : F.Reaches b w u t) :
    (w.tree u).poisoned = false ∧ ∃ s, w.agent? u b = some s ∧
      (t = u ∨ ∃ link, (F.tree u).awaited s = some (.subTree link) ∧
        F.Reaches b (w.checkOut u b) link.tree t) := by
  cases h with
  | here hpoisoned hagent => exact ⟨hpoisoned, _, hagent, .inl rfl⟩
  | link hpoisoned hagent hawaited hnext =>
    exact ⟨hpoisoned, _, hagent, .inr ⟨_, hawaited, hnext⟩⟩

/-- Only a tree that has something of the agent is reached. -/
theorem Reaches.agent? (h : F.Reaches b w u t) : w.agent? t b ≠ none := by
  induction h with
  | here _ hagent => simp [hagent]
  | @link w u t _ _ _ _ _ _ ih =>
    intro habsent
    rw [World.agent?_checkOut] at ih
    split at ih
    · exact ih rfl
    · exact ih habsent

/-- Nothing goes back to where the agent was taken out. -/
theorem not_reaches_checkOut : ¬ F.Reaches b (w.checkOut u b) t u := fun h =>
  h.agent? (World.agent?_checkOut_self w u b)

/-- Nothing that shows has changed but of one agent in one tree. -/
structure SameBeside (u : TreeId) (b : K) (w w' : World K A) : Prop where
  poisoned : ∀ t, (w'.tree t).poisoned = (w.tree t).poisoned
  agent? : ∀ {t a}, ¬ (u = t ∧ b = a) → w'.agent? t a = w.agent? t a
  calls : ∀ {t a}, ¬ (u = t ∧ b = a) → w'.calls t a = w.calls t a

theorem SameBeside.trans {w'' : World K A} (h : SameBeside u b w w') (h' : SameBeside u b w' w'') :
    SameBeside u b w w'' :=
  ⟨fun t => (h'.poisoned t).trans (h.poisoned t), fun hne => (h'.agent? hne).trans (h.agent? hne),
    fun hne => (h'.calls hne).trans (h.calls hne)⟩

theorem sameBeside_checkOut (u : TreeId) (b : K) (w : World K A) :
    SameBeside u b w (w.checkOut u b) where
  poisoned t := by
    by_cases hut : u = t
    · subst hut
      simp
    · rw [World.tree_checkOut_of_ne w b hut]
  agent? hne := by rw [World.agent?_checkOut, if_neg hne]
  calls _ := rfl

theorem sameBeside_checkIn (u : TreeId) (b : K) (w : World K A) (s : AgentState) :
    SameBeside u b w (w.checkIn u b s) where
  poisoned t := by
    by_cases hut : u = t
    · subst hut
      simp
    · rw [World.tree_checkIn_of_ne w b s hut]
  agent? hne := by rw [World.agent?_checkIn, if_neg hne]
  calls _ := rfl

theorem sameBeside_endVisit {task : RunnableTask K A} (hq : task.Asks Request.Quiet)
    {index : Nat} {status : Status} {board board' : Blackboard}
    (h : (F.tickOf u b).endVisit handler index task status board w = .done board' w') :
    SameBeside u b w w' := by
  have htree := Tick.endVisit_tree hq h
  refine ⟨fun t => by rw [htree], fun _ => by rw [World.agent?, World.agent?, htree], ?_⟩
  intro t a hne
  simp [Tick.endVisit_calls hq h t a, hne]

/-- A visit that is open in a tree is cut short, and the story goes on with a mark. -/
def Cuts (F : Forest K A) (mark : Beat K) (t : TreeId) (b : K) (w w' : World K A) : Prop :=
  F.openTask t b w' = none ∧ ∃ new, w'.calls t b = w.calls t b ++ new ∧
    ∀ l, Story t b (F.tree t).program l (F.openTask t b w) →
      Story t b (F.tree t).program (l ++ mark :: new) none

/-- What an abort or a removal does to the agents of all trees: an agent is reached and its
visit cut short, or nothing that shows of it has changed. -/
structure CutsAlong (F : Forest K A) (mark : Beat K) (u : TreeId) (b : K) (w w' : World K A) :
    Prop where
  poisoned : ∀ t, (w'.tree t).poisoned = (w.tree t).poisoned
  spared : ∀ {t a}, ¬ (b = a ∧ F.Reaches b w u t) →
    w'.agent? t a = w.agent? t a ∧ w'.calls t a = w.calls t a
  reached : ∀ {t}, F.Reaches b w u t → F.Cuts mark t b w w'

theorem cutsAlong_unreached {mark : Beat K} (hnot : ∀ t, ¬ F.Reaches b w u t)
    (hpoisoned : ∀ t, (w'.tree t).poisoned = (w.tree t).poisoned)
    (hagent : ∀ t a, w'.agent? t a = w.agent? t a) (hcalls : ∀ t a, w'.calls t a = w.calls t a) :
    F.CutsAlong mark u b w w' :=
  ⟨hpoisoned, fun _ => ⟨hagent _ _, hcalls _ _⟩, fun hreach => absurd hreach (hnot _)⟩

/-- Where an agent is in no linked tree, only the tree itself is reached. -/
theorem cutsAlong_here {mark : Beat K} {s : AgentState} (hunpoisoned : (w.tree u).poisoned = false)
    (hagent : w.agent? u b = some s) (hlink : ∀ link, (F.tree u).awaited s ≠ some (.subTree link))
    (hbeside : SameBeside u b w w') (hcut : F.Cuts mark u b w w') : F.CutsAlong mark u b w w' where
  poisoned := hbeside.poisoned
  spared {t a} hnot := by
    have hne : ¬ (u = t ∧ b = a) := by
      rintro ⟨rfl, rfl⟩
      exact hnot ⟨rfl, .here hunpoisoned hagent⟩
    exact ⟨hbeside.agent? hne, hbeside.calls hne⟩
  reached hreach := by
    obtain ⟨-, s', hagent', hwhere⟩ := hreach.inv
    rw [hagent] at hagent'
    cases hagent'
    rcases hwhere with rfl | ⟨link, hawaited, -⟩
    · exact hcut
    · exact absurd hawaited (hlink link)

/-- Where an agent is in a linked tree, what is cut along the link is cut, and the tree
itself has no visit open. -/
theorem cutsAlong_link {mark : Beat K} {s : AgentState} {link : Link} {w₁ : World K A}
    (hidle : Over u b (F.tree u).program [mark]) (hunpoisoned : (w.tree u).poisoned = false)
    (hagent : w.agent? u b = some s) (hawaited : (F.tree u).awaited s = some (.subTree link))
    (hinner : F.CutsAlong mark link.tree b (w.checkOut u b) w₁)
    (hbeside : SameBeside u b w₁ w') (hcalls : w'.calls u b = w₁.calls u b)
    (hopen : F.openTask u b w' = none) : F.CutsAlong mark u b w w' where
  poisoned t := (hbeside.poisoned t).trans
    ((hinner.poisoned t).trans ((sameBeside_checkOut u b w).poisoned t))
  spared {t a} hnot := by
    have hne : ¬ (u = t ∧ b = a) := by
      rintro ⟨rfl, rfl⟩
      exact hnot ⟨rfl, .here hunpoisoned hagent⟩
    obtain ⟨hagent₁, hcalls₁⟩ := hinner.spared
      fun hreach => hnot ⟨hreach.1, .link hunpoisoned hagent hawaited hreach.2⟩
    exact ⟨(hbeside.agent? hne).trans (hagent₁.trans ((sameBeside_checkOut u b w).agent? hne)),
      (hbeside.calls hne).trans hcalls₁⟩
  reached {t} hreach := by
    by_cases hut : u = t
    · subst hut
      have hinside : w₁.calls u b = (w.checkOut u b).calls u b :=
        (hinner.spared fun hback => not_reaches_checkOut hback.2).2
      have hclosed : F.openTask u b w = none := by
        rw [openTask, hagent, Option.bind_some, Tree.openTask, hawaited]
      refine ⟨hopen, [], by rw [hcalls, hinside, List.append_nil]; rfl, fun l hl => ?_⟩
      rw [hclosed] at hl
      exact .closed hl hidle
    · have hne : ¬ (u = t ∧ b = b) := fun h => hut h.1
      obtain ⟨-, s', hagent', hwhere⟩ := hreach.inv
      rw [hagent] at hagent'
      cases hagent'
      rcases hwhere with rfl | ⟨link', hawaited', hnext⟩
      · exact absurd rfl hut
      · rw [hawaited] at hawaited'
        cases hawaited'
        obtain ⟨hopen₁, new, hnew, hstory⟩ := hinner.reached hnext
        refine ⟨?_, new, (hbeside.calls hne).trans hnew, fun l hl => hstory l ?_⟩
        · rw [openTask_of_agent? (hbeside.agent? hne), hopen₁]
        · rwa [openTask_of_agent? ((sameBeside_checkOut u b w).agent? hne)]

/-! ### Aborts -/

theorem openTask_rewound (w : World K A) (s : AgentState) :
    F.openTask u b (w.checkIn u b s.rewind) = none := by
  rw [openTask, World.agent?_checkIn_self]
  exact Tree.openTask_unpaused (T := F.tree u) (s := s.rewind) rfl

theorem abort_cuts (hF : F.Asks Request.Quiet)
    (hh : ∀ {u b w w'}, handler (.abort u b) w = .done () w' → F.CutsAlong .aborted u b w w')
    (h : F.abort handler u b w = .done () w') : F.CutsAlong .aborted u b w w' := by
  have hcancelled : ∀ {s board w₁}, (w.tree u).poisoned = false → w.agent? u b = some s →
      F.cancel handler u b s (w.checkOut u b) = .done board w₁ →
      F.CutsAlong .aborted u b w (w₁.checkIn u b { s with board := board }.rewind) := by
    intro s board w₁ hunpoisoned hagent hcancel
    rw [cancel] at hcancel
    have hopen := openTask_rewound (F := F) (u := u) (b := b) w₁ { s with board := board }
    split at hcancel
    · rename_i task hawaited
      obtain ⟨i, hget, hop⟩ := Tree.awaited_inv hawaited
      have hquiet : task.Asks Request.Quiet := Tick.quiet_task (hF.quiet u b) hget hop
      have hcalls := Tick.endVisit_calls hquiet hcancel u b
      have htask : F.openTask u b w = some s.cursor := by
        rw [openTask, hagent, Option.bind_some, Tree.openTask, hawaited]
      refine cutsAlong_here hunpoisoned hagent (by simp [hawaited])
        (((sameBeside_checkOut u b w).trans (sameBeside_endVisit hquiet hcancel)).trans
          (sameBeside_checkIn u b w₁ _)) ⟨hopen, closing u b s.cursor task .failure, ?_, ?_⟩
      · refine Eq.trans hcalls ?_
        simp
        rfl
      · intro l hl
        rw [htask] at hl
        exact hl.abort ⟨i, hget, hop⟩
    · rename_i link hawaited
      obtain ⟨_, habort, rfl⟩ := Outcome.map_eq_done_iff.1 hcancel
      exact cutsAlong_link .abortedIdle hunpoisoned hagent hawaited (hh habort)
        (sameBeside_checkIn u b w₁ _) rfl hopen
    · rename_i htask hlink
      cases hcancel
      have hclosed : F.openTask u b w = none := by
        rw [openTask, hagent, Option.bind_some, Tree.openTask]
        split
        · exact absurd ‹_› (htask _)
        · rfl
      refine cutsAlong_here hunpoisoned hagent (fun link heq => hlink link heq)
        ((sameBeside_checkOut u b w).trans (sameBeside_checkIn u b _ _)) ⟨hopen, [], ?_, ?_⟩
      · rw [List.append_nil]
        rfl
      · intro l hl
        rw [hclosed] at hl
        exact .closed hl .abortedIdle
  cases abort_cases h with
  | skipped hpoisoned =>
    refine cutsAlong_unreached (fun t hreach => ?_) (fun _ => rfl) (fun _ _ => rfl)
      fun t a => World.calls_log_of_not rfl w
    rw [hreach.inv.1] at hpoisoned
    cases hpoisoned
  | absent _ habsent =>
    refine cutsAlong_unreached (fun t hreach => ?_) (fun _ => rfl) (fun _ _ => rfl) fun _ _ => rfl
    obtain ⟨-, s, hagent, -⟩ := hreach.inv
    rw [habsent] at hagent
    cases hagent
  | lost hunpoisoned hagent hcancel hlost =>
    have hpoisoned := (hcancelled hunpoisoned hagent hcancel).poisoned u
    rw [hunpoisoned] at hpoisoned
    simp [hlost] at hpoisoned
  | rewound hunpoisoned hagent hcancel => exact hcancelled hunpoisoned hagent hcancel

/-! ### Removals -/

theorem remove_cuts
    (hh : ∀ {u b w r w'}, handler (.remove u b) w = .done r w' → F.CutsAlong .removed u b w w')
    {r : Bool} (h : F.remove handler u b w = .done r w') : F.CutsAlong .removed u b w w' := by
  cases remove_cases h with
  | refused hpoisoned =>
    refine cutsAlong_unreached (fun t hreach => ?_) (fun _ => rfl) (fun _ _ => rfl) fun _ _ => rfl
    rw [hreach.inv.1] at hpoisoned
    cases hpoisoned
  | absent _ habsent =>
    refine cutsAlong_unreached (fun t hreach => ?_) (fun _ => rfl) (fun _ _ => rfl) fun _ _ => rfl
    obtain ⟨-, s, hagent, -⟩ := hreach.inv
    rw [habsent] at hagent
    cases hagent
  | linked hunpoisoned hagent hawaited hremove =>
    have hinner := hh hremove
    have hsame : w'.agent? u b = (w.checkOut u b).agent? u b :=
      (hinner.spared fun hback => not_reaches_checkOut hback.2).1
    refine cutsAlong_link .removedIdle hunpoisoned hagent hawaited hinner
      ⟨fun _ => rfl, fun _ => rfl, fun _ => rfl⟩ rfl ?_
    rw [openTask, hsame, World.agent?_checkOut_self]
    rfl
  | unlinked hunpoisoned hagent hlink =>
    refine cutsAlong_here hunpoisoned hagent hlink (sameBeside_checkOut u b w) ⟨?_, [], ?_, ?_⟩
    · rw [openTask, World.agent?_checkOut_self]
      rfl
    · rw [List.append_nil]
      rfl
    · intro l hl
      exact hl.remove

/-! ## Operations -/

theorem serve_abort_cuts (hF : F.Asks Request.Quiet) {n : Nat}
    (h : F.serve n (.abort u b) w = .done () w') : F.CutsAlong .aborted u b w w' := by
  induction n generalizing u b w w' with
  | zero => cases h
  | succ n ih => exact abort_cuts hF ih h

theorem serve_remove_cuts {n : Nat} {r : Bool}
    (h : F.serve n (.remove u b) w = .done r w') : F.CutsAlong .removed u b w w' := by
  induction n generalizing u b w w' r with
  | zero => cases h
  | succ n ih => exact remove_cuts ih h

/-- Keeping an agent where it stands goes on with all stories. -/
theorem checkIn_carries {s : AgentState} (hcursor : s.cursor = (w.state u b).cursor)
    (hpaused : s.paused = (w.state u b).paused) (t : TreeId) (a : K) :
    F.Carries t a w (w.checkIn u b s) := by
  have hopen : F.openTask t a (w.checkIn u b s) = F.openTask t a w := by
    by_cases hub : u = t ∧ b = a
    · obtain ⟨rfl, rfl⟩ := hub
      rw [openTask_state F u b w, openTask, World.agent?_checkIn_self]
      exact Tree.openTask_congr hcursor hpaused
    · exact openTask_of_agent? ((sameBeside_checkIn u b w s).agent? hub)
  rw [Carries, hopen]
  exact .of_calls rfl

theorem update_carries (edit : Edit) (t : TreeId) (a : K) :
    F.Carries t a w (update u b edit w).2 := by
  obtain ⟨⟨r, w'⟩, hupdate⟩ : ∃ p, update u b edit w = p := ⟨_, rfl⟩
  rw [hupdate]
  cases update_cases hupdate with
  | refused => exact .of_same rfl rfl
  | died =>
    exact (checkIn_carries (s := w.state u b) rfl rfl t a).trans
      (.of_same (World.agent?_modifyTree _ u (f := fun s => { s with poisoned := true })
        (fun _ => rfl) t a) rfl)
  | @edited board => exact checkIn_carries (s := { w.state u b with board := board }) rfl rfl t a

/-- What the story of an agent in a tree tells of an operation, beside the hooks that are
called: that an abort or a removal reaches the agent there. -/
noncomputable def marks (F : Forest K A) (t : TreeId) (a : K) (w : World K A) :
    Call K → List (Beat K)
  | .abort u b => open Classical in if b = a ∧ F.Reaches b w u t then [.aborted] else []
  | .remove u b => open Classical in if b = a ∧ F.Reaches b w u t then [.removed] else []
  | .run .. | .update .. => []

theorem filter_marks (F : Forest K A) (t : TreeId) (a : K) (w : World K A) (c : Call K) :
    (F.marks t a w c).filter Beat.isCall = [] := by
  cases c with
  | run | update => rfl
  | abort u b | remove u b =>
    simp only [marks]
    split <;> rfl

/-- What the story of an agent in a tree tells of operations, one after the other. What lies
outside the trees may change between them. -/
inductive Chronicle (F : Forest K A) (t : TreeId) (a : K) (w₀ : World K A) :
    List (Beat K) → World K A → Prop where
  | start : Chronicle F t a w₀ [] w₀
  | operation {l : List (Beat K)} {w w' : World K A} {n : Nat} {c : Call K} {r : c.Reply} :
      Chronicle F t a w₀ l w → F.serve n c w = .done r w' →
      Chronicle F t a w₀
        (l ++ (F.marks t a w c ++ (w'.calls t a).drop (w.calls t a).length)) w'
  | outside {l : List (Beat K)} {w w' : World K A} :
      Chronicle F t a w₀ l w → w'.trees = w.trees → w'.journal = w.journal →
      Chronicle F t a w₀ l w'

theorem CutsAlong.story {mark : Beat K} (h : F.CutsAlong mark u b w w') (t : TreeId) (a : K) :
    ∃ new, w'.calls t a = w.calls t a ++ new ∧
      ∀ l, Story t a (F.tree t).program l (F.openTask t a w) →
        Story t a (F.tree t).program
          (l ++ ((open Classical in if b = a ∧ F.Reaches b w u t then [mark] else []) ++ new))
          (F.openTask t a w') := by
  by_cases hreach : b = a ∧ F.Reaches b w u t
  · rw [if_pos hreach]
    obtain ⟨rfl, hreach⟩ := hreach
    obtain ⟨hopen, new, hcalls, hstory⟩ := h.reached hreach
    refine ⟨new, hcalls, fun l hl => ?_⟩
    rw [hopen]
    exact hstory l hl
  · rw [if_neg hreach]
    obtain ⟨hagent, hcalls⟩ := h.spared hreach
    refine ⟨[], by simp [hcalls], fun l hl => ?_⟩
    rw [openTask_of_agent? hagent]
    simpa using hl

/-- An operation goes on with the story of every agent in every tree, told with its marks. -/
theorem serve_story (hF : F.Asks Request.Quiet) {n : Nat} {c : Call K} {r : c.Reply}
    (h : F.serve n c w = .done r w') (t : TreeId) (a : K) :
    ∃ new, w'.calls t a = w.calls t a ++ new ∧
      ∀ l, Story t a (F.tree t).program l (F.openTask t a w) →
        Story t a (F.tree t).program (l ++ (F.marks t a w c ++ new)) (F.openTask t a w') := by
  cases c with
  | run u b => exact serve_carries hF n h t a
  | abort u b => exact (serve_abort_cuts hF h).story t a
  | remove u b => exact (serve_remove_cuts h).story t a
  | update u b edit =>
    cases n with
    | zero => cases h
    | succ n =>
      cases h
      exact update_carries edit t a

/-- A tick that returns an error leaves no visit open. -/
theorem openTask_of_error (hF : F.Asks Request.Quiet) {n : Nat} {e : RunError}
    (hrunning : (w.tree t).running = false) (hpoisoned : (w.tree t).poisoned = false)
    (h : F.serve n (.run t a) w = .done (.error e) w') : F.openTask t a w' = none := by
  cases n with
  | zero => cases h
  | succ n =>
    obtain ⟨s, w₁, hperform, rfl⟩ := ticked_of_run hF (serve_spares hF n) hrunning hpoisoned h
    rw [openTask, World.agent?_ticked]
    exact Tree.openTask_unpaused (Tick.perform_unpaused (by simp) hperform)

/-- The hook protocol. Over operations on any trees, what is told of an agent in a tree is a
story with a visit open exactly where the agent is suspended on a task, its calls are the
calls that are made, and a tick that returns an error leaves no visit open. -/
theorem story_of_chronicle {w₀ : World K A} (hF : F.Asks Request.Quiet)
    (hfresh : F.openTask t a w₀ = none) {l : List (Beat K)} (h : F.Chronicle t a w₀ l w) :
    (∀ o, Story t a (F.tree t).program l o ↔ o = F.openTask t a w) ∧
      w.calls t a = w₀.calls t a ++ l.filter Beat.isCall ∧
      ∀ {n v e v'}, (v.tree t).running = false → (v.tree t).poisoned = false →
        F.serve n (.run t a) v = .done (.error e) v' → F.openTask t a v' = none := by
  have hstory : Story t a (F.tree t).program l (F.openTask t a w) ∧
      w.calls t a = w₀.calls t a ++ l.filter Beat.isCall := by
    induction h with
    | start =>
      rw [hfresh]
      exact ⟨.nil, by simp⟩
    | @operation l w w' n c r _ hserve ih =>
      obtain ⟨new, hcalls, hgoes⟩ := serve_story hF hserve t a
      have hnew : (w'.calls t a).drop (w.calls t a).length = new := by simp [hcalls]
      have hkept : new.filter Beat.isCall = new := by
        rw [← hnew, List.filter_eq_self]
        exact fun beat hbeat => World.isCall_of_mem_calls (List.mem_of_mem_drop hbeat)
      rw [hnew]
      exact ⟨hgoes l ih.1, by rw [hcalls, ih.2]; simp [hkept, filter_marks]⟩
    | outside _ htrees hjournal ih =>
      rw [openTask, World.agent?, World.tree, htrees, World.calls, World.history, hjournal]
      exact ih
  refine ⟨fun o => ⟨fun ho => ?_, fun ho => ho ▸ hstory.1⟩, hstory.2,
    fun hrunning hpoisoned hserve => openTask_of_error hF hrunning hpoisoned hserve⟩
  rw [← ho.openVisit, hstory.1.openVisit]

/-- A task in a linked tree that waits, and is then aborted through the link. -/
theorem story_of_chronicle_aborted :
    let wait : RunnableTask Unit Unit :=
      ⟨"wait", some fun _ => pure (), fun _ => pure (.ok .running), some fun _ _ => pure ()⟩
    let F : Forest Unit Unit :=
      ⟨[{ program := ⟨[⟨.task wait, 1, 2⟩]⟩ }, { program := ⟨[⟨.subTree ⟨0, 1⟩, 1, 2⟩]⟩ }]⟩
    let w₀ : World Unit Unit := { ambient := () }
    F.Asks Request.Quiet ∧ F.openTask 0 () w₀ = none ∧
      ∃ l w l' w', F.Chronicle 0 () w₀ l w ∧ Story 0 () (F.tree 0).program l (some 0) ∧
        F.Chronicle 0 () w₀ l' w' ∧ Story 0 () (F.tree 0).program l' none ∧
        w'.calls 0 () = l'.filter Beat.isCall := by
  intro wait F w₀
  have hwait : wait.Asks Request.Quiet :=
    ⟨fun hstart _ => by cases hstart; exact .done (), fun _ => .done _,
      fun hfinish _ _ => by cases hfinish; exact .done ()⟩
  have hquiet : F.Asks Request.Quiet := by
    intro t index task yes no hget
    match t, index, hget with
    | 0, 0, hget =>
      cases hget
      exact hwait
    | 0, index + 1, hget => cases hget
    | 1, 0, hget => cases hget
    | 1, index + 1, hget => cases hget
    | t + 2, index, hget => cases hget
  have hfresh : F.openTask 0 () w₀ = none := rfl
  have hran := Forest.Chronicle.operation (F := F) (t := 0) (a := ()) (n := 4) .start
    (show F.serve 4 (.run 1 ()) w₀ = .done _ _ from rfl)
  have haborted := Forest.Chronicle.operation (n := 4) hran
    (show F.serve 4 (.abort 1 ()) _ = .done _ _ from rfl)
  have hopen := (story_of_chronicle hquiet hfresh hran).1 (some 0)
  have hclosed := story_of_chronicle hquiet hfresh haborted
  exact ⟨hquiet, hfresh, _, _, _, _, hran, hopen.2 rfl, haborted, (hclosed.1 none).2 rfl,
    hclosed.2.1⟩

end Forest

end TickTree

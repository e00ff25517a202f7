import TickTree.Proofs.Protocol

/-!
# Where agents are suspended

An agent that is ticked in one tree gets into others along links. Wherever it is suspended in
consequence, an abort of it in that tree reaches it (`Forest.InReach`). Taking the agent out of
the tree leaves what its state there holds (`Forest.InReach.checkOut`), and putting it back puts
that within reach again (`Forest.Holds.checkIn`).
-/

namespace TickTree

variable {K A : Type} [DecidableEq K] {r t u : TreeId} {a b : K} {q : Prop} {w w' v : World K A}

/-! ## Worlds -/

namespace World

/-- No tree is poisoned. -/
def Unpoisoned (w : World K A) : Prop := ∀ t, (w.tree t).poisoned = false

/-- An agent is suspended in a tree. -/
def Waits (w : World K A) (a : K) (t : TreeId) : Prop :=
  ∃ s, w.agent? t a = some s ∧ s.paused = true

/-- An agent is suspended nowhere. -/
def Free (w : World K A) (a : K) : Prop := ∀ t, ¬ w.Waits a t

/-- A tree is ticking, and an agent is taken out of it. -/
def Ticks (w : World K A) (a : K) (t : TreeId) : Prop :=
  (w.tree t).running = true ∧ w.agent? t a = none

/-- To an agent with this root nothing has changed. The root may have come to rest, unless the
condition says otherwise. -/
structure SameTo (r : TreeId) (a : K) (q : Prop) (w w' : World K A) : Prop where
  agent? : ∀ t, w'.agent? t a = w.agent? t a
  poisoned : ∀ t, (w'.tree t).poisoned = (w.tree t).poisoned
  running : q → (w.tree r).running = true → (w'.tree r).running = true

theorem SameTo.trans (h : SameTo r a q w w') (h' : SameTo r a q w' v) : SameTo r a q w v :=
  ⟨fun t => (h'.agent? t).trans (h.agent? t), fun t => (h'.poisoned t).trans (h.poisoned t),
    fun hq hr => h'.running hq (h.running hq hr)⟩

theorem sameTo_of_trees (h : v.trees = w.trees) : SameTo r a q w v := by
  have htree : ∀ t, v.tree t = w.tree t := fun t => by rw [tree, tree, h]
  refine ⟨fun t => ?_, fun t => by rw [htree], fun _ hr => by rwa [htree]⟩
  rw [World.agent?, World.agent?, htree]

theorem sameTo_modifyTree (w : World K A) (t : TreeId) {f : TreeState K → TreeState K}
    (hagent : ∀ s, (f s).agents.get? a = s.agents.get? a)
    (hpoisoned : ∀ s, (f s).poisoned = s.poisoned)
    (hrunning : q → t = r → ∀ s, s.running = true → (f s).running = true) :
    SameTo r a q w (w.modifyTree t f) where
  agent? u := project_modifyTree w t (p := fun s => s.agents.get? a) hagent u
  poisoned u := project_modifyTree w t (p := (·.poisoned)) hpoisoned u
  running hq hr := by
    rw [tree_modifyTree]
    split
    · rename_i htr
      exact hrunning hq htr _ (htr ▸ hr)
    · exact hr

theorem sameTo_enter (w : World K A) (t : TreeId) (b : K) : SameTo r a q w (w.enter t b) :=
  (sameTo_modifyTree w t (f := fun s => { s with running := true }) (fun _ => rfl)
    (fun _ => rfl) fun _ _ _ _ => rfl).trans (sameTo_of_trees rfl)

theorem sameTo_leave (w : World K A) (b : K) (result : Except RunError Status)
    (hidle : q → t ≠ r) : SameTo r a q w (w.leave t b result) :=
  (sameTo_modifyTree w t (f := fun s => { s with running := false }) (fun _ => rfl)
    (fun _ => rfl) fun hq htr => absurd htr (hidle hq)).trans (sameTo_of_trees rfl)

theorem sameTo_checkOut (w : World K A) (t : TreeId) (hb : b ≠ a) :
    SameTo r a q w (w.checkOut t b) :=
  sameTo_modifyTree w t (fun _ => Table.get?_erase_of_ne _ hb) (fun _ => rfl) fun _ _ _ hs => hs

theorem sameTo_checkIn (w : World K A) (t : TreeId) (hb : b ≠ a) (s : AgentState) :
    SameTo r a q w (w.checkIn t b s) :=
  sameTo_modifyTree w t (fun _ => Table.get?_set_of_ne _ _ hb) (fun _ => rfl) fun _ _ _ hs => hs

section

variable (h : SameTo r a q w w')
include h

theorem SameTo.unpoisoned (hw : w.Unpoisoned) : w'.Unpoisoned :=
  fun t => (h.poisoned t).trans (hw t)

theorem SameTo.ticks (hq : q) (hw : w.Ticks a r) : w'.Ticks a r :=
  ⟨h.running hq hw.1, (h.agent? r).trans hw.2⟩

theorem SameTo.waits (hw : w'.Waits a t) : w.Waits a t := by
  obtain ⟨s, hs, hpaused⟩ := hw
  exact ⟨s, (h.agent? t).symm.trans hs, hpaused⟩

theorem SameTo.free (hw : w.Free a) : w'.Free a := fun t ht => hw t (h.waits ht)

end

theorem waits_checkOut (h : (w.checkOut t a).Waits a u) : t ≠ u ∧ w.Waits a u := by
  obtain ⟨s, hs, hpaused⟩ := h
  rw [agent?_checkOut] at hs
  split at hs
  · cases hs
  · rename_i hne
    exact ⟨fun htu => hne ⟨htu, rfl⟩, s, hs, hpaused⟩

theorem waits_checkIn {s : AgentState} (h : (w.checkIn t a s).Waits a u) :
    (t = u ∧ s.paused = true) ∨ (t ≠ u ∧ w.Waits a u) := by
  obtain ⟨s', hs, hpaused⟩ := h
  rw [agent?_checkIn] at hs
  split at hs
  · rename_i hsame
    cases hs
    exact .inl ⟨hsame.1, hpaused⟩
  · rename_i hne
    exact .inr ⟨fun htu => hne ⟨htu, rfl⟩, s', hs, hpaused⟩

theorem Free.unpaused (h : w.Free a) (t : TreeId) : (w.state t a).paused = false := by
  rw [state]
  cases hagent : w.agent? t a with
  | none => rfl
  | some s => exact Bool.eq_false_iff.2 fun hpaused => h t ⟨s, hagent, hpaused⟩

theorem Free.checkIn (h : w.Free a) {s : AgentState} (hs : s.paused = false) (t : TreeId) :
    (w.checkIn t a s).Free a := by
  intro u hu
  rcases waits_checkIn hu with ⟨-, hpaused⟩ | ⟨-, hw⟩
  · exact absurd hpaused (by simp [hs])
  · exact h u hw

theorem Unpoisoned.checkOut (h : w.Unpoisoned) (t : TreeId) (a : K) :
    (w.checkOut t a).Unpoisoned := fun u =>
  (project_modifyTree w t (f := fun s => { s with agents := s.agents.erase a })
    (p := (·.poisoned)) (fun _ => rfl) u).trans (h u)

theorem Unpoisoned.checkIn (h : w.Unpoisoned) (t : TreeId) (a : K) (s : AgentState) :
    (w.checkIn t a s).Unpoisoned := fun u =>
  (project_modifyTree w t (f := fun x => { x with agents := x.agents.set a s })
    (p := (·.poisoned)) (fun _ => rfl) u).trans (h u)

/-- An agent that is let into another tree than its root is out of the root as before. -/
theorem Ticks.checkIn (h : w.Ticks a r) (htr : t ≠ r) (s : AgentState) :
    (w.checkIn t a s).Ticks a r := by
  refine ⟨by rw [tree_checkIn_of_ne w a s htr]; exact h.1, ?_⟩
  rw [World.agent?_checkIn, if_neg fun hsame => htr hsame.1]
  exact h.2

theorem Ticks.checkOut (h : w.Ticks a r) (t : TreeId) : (w.checkOut t a).Ticks a r := by
  have hrunning : ((w.checkOut t a).tree r).running = (w.tree r).running :=
    project_modifyTree w t (f := fun s => { s with agents := s.agents.erase a })
      (p := (·.running)) (fun _ => rfl) r
  refine ⟨hrunning.trans h.1, ?_⟩
  rw [agent?_checkOut]
  split
  · rfl
  · exact h.2

end World

/-! ## Within reach -/

namespace Forest

variable {F : Forest K A} {s : AgentState}

/-- Links lead to trees before their own. -/
def Descends (F : Forest K A) : Prop :=
  ∀ {t index i link}, (F.tree t).program.get? index = some i → i.op = .subTree link →
    link.tree < t

/-- Wherever an agent is suspended, an abort of it in a tree reaches it. -/
def InReach (F : Forest K A) (a : K) (t : TreeId) (w : World K A) : Prop :=
  ∀ u, w.Waits a u → F.Reaches a w t u

/-- Wherever an agent is suspended, an abort of it reaches it through the link that it waits at
with this state. -/
def Holds (F : Forest K A) (a : K) (t : TreeId) (s : AgentState) (w : World K A) : Prop :=
  ∀ u, w.Waits a u → ∃ link, (F.tree t).awaited s = some (.subTree link) ∧
    F.Reaches a w link.tree u

omit [DecidableEq K] in
theorem awaited_lt (hF : F.Descends) {link : Link}
    (h : (F.tree t).awaited s = some (.subTree link)) : link.tree < t := by
  obtain ⟨i, hget, hop⟩ := Tree.awaited_inv h
  exact hF hget hop

/-- What is reached depends on the trees below. -/
theorem Reaches.congr (hF : F.Descends) (h : F.Reaches a w t u)
    (hsame : ∀ x ≤ t, w'.agent? x a = w.agent? x a ∧ (w'.tree x).poisoned = (w.tree x).poisoned) :
    F.Reaches a w' t u := by
  induction h generalizing w' with
  | here hpoisoned hagent =>
    obtain ⟨hagent', hpoisoned'⟩ := hsame _ (Nat.le_refl _)
    exact .here (hpoisoned'.trans hpoisoned) (hagent'.trans hagent)
  | @link w t u s link hpoisoned hagent hawaited _ ih =>
    obtain ⟨hagent', hpoisoned'⟩ := hsame t (Nat.le_refl t)
    refine .link (hpoisoned'.trans hpoisoned) (hagent'.trans hagent) hawaited (ih fun x hx => ?_)
    have hxt : x < t := Nat.lt_of_le_of_lt hx (awaited_lt hF hawaited)
    have htx : t ≠ x := (Nat.ne_of_lt hxt).symm
    obtain ⟨hagentx, hpoisonedx⟩ := hsame x (Nat.le_of_lt hxt)
    rw [World.agent?_checkOut, World.agent?_checkOut, if_neg (fun h => htx h.1),
      if_neg (fun h => htx h.1), World.tree_checkOut_of_ne _ a htx,
      World.tree_checkOut_of_ne _ a htx]
    exact ⟨hagentx, hpoisonedx⟩

theorem InReach.same (hF : F.Descends) (h : F.InReach a t w) (hsame : World.SameTo r a q w w') :
    F.InReach a t w' := by
  intro u hu
  exact (h u (hsame.waits hu)).congr hF fun x _ => ⟨hsame.agent? x, hsame.poisoned x⟩

theorem inReach_of_free (h : w.Free a) : F.InReach a t w := fun u hu => absurd hu (h u)

theorem holds_of_free (h : w.Free a) : F.Holds a t s w := fun u hu => absurd hu (h u)

/-- An agent that is not suspended in a tree is suspended nowhere within its reach. -/
theorem InReach.free (h : F.InReach a t w) (hnot : ¬ w.Waits a t) : w.Free a := by
  intro u hu
  obtain ⟨-, s, hs, hwhere⟩ := (h u hu).inv
  rcases hwhere with rfl | ⟨link, hawaited, -⟩
  · exact hnot hu
  · exact hnot ⟨s, hs, Tree.paused_of_awaited hawaited⟩

theorem Holds.free (h : F.Holds a t s w)
    (hnone : ∀ link, (F.tree t).awaited s ≠ some (.subTree link)) : w.Free a := by
  intro u hu
  obtain ⟨link, hawaited, -⟩ := h u hu
  exact hnone link hawaited

theorem Holds.inReach {link : Link} (h : F.Holds a t s w)
    (hawaited : (F.tree t).awaited s = some (.subTree link)) : F.InReach a link.tree w := by
  intro u hu
  obtain ⟨link', hawaited', hreach⟩ := h u hu
  rw [hawaited] at hawaited'
  cases hawaited'
  exact hreach

/-- Taking an agent out of a tree leaves what its state there holds. -/
theorem InReach.checkOut (h : F.InReach a t w) : F.Holds a t (w.state t a) (w.checkOut t a) := by
  intro u hu
  obtain ⟨htu, hu⟩ := World.waits_checkOut hu
  obtain ⟨-, s, hs, hwhere⟩ := (h u hu).inv
  rcases hwhere with rfl | ⟨link, hawaited, hreach⟩
  · exact absurd rfl htu
  · exact ⟨link, World.state_of_agent? hs ▸ hawaited, hreach⟩

/-- Putting an agent into a tree puts what its state holds within reach. -/
theorem Holds.checkIn (hF : F.Descends) (hw : w.Unpoisoned) (h : F.Holds a t s w) :
    F.InReach a t (w.checkIn t a s) := by
  intro u hu
  have hpoisoned := hw.checkIn t a s t
  have hagent := World.agent?_checkIn_self w t a s
  rcases World.waits_checkIn hu with ⟨rfl, -⟩ | ⟨-, hu⟩
  · exact .here hpoisoned hagent
  · obtain ⟨link, hawaited, hreach⟩ := h u hu
    refine .link hpoisoned hagent hawaited (hreach.congr hF fun x hx => ?_)
    have htx : t ≠ x := (Nat.ne_of_lt (Nat.lt_of_le_of_lt hx (awaited_lt hF hawaited))).symm
    rw [World.agent?_checkOut, World.agent?_checkIn, if_neg (fun h => htx h.1),
      if_neg (fun h => htx h.1), World.tree_checkOut_of_ne _ a htx,
      World.tree_checkIn_of_ne _ a s htx]
    exact ⟨rfl, rfl⟩

end Forest

end TickTree

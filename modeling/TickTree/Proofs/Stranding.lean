import TickTree.Proofs.Contracts
import TickTree.Proofs.Reach

/-!
# Agents left behind

An agent that is ticked and aborted in one tree only, its root, is suspended nowhere but where
an abort of it in the root reaches it. After a tick of the root that has failed it is suspended
nowhere at all, so the next tick of it resumes nothing (`Forest.free_of_error`).

Two things are excepted. A tick that resumes a link is refused if the linked tree is busy with
another agent. It fails, and the agent is left behind in the linked tree
(`Forest.left_behind`). And if an agent is ticked in the course of its own abort and suspended,
the abort puts back the state it has taken out of the root, and what the tick has left in linked
trees stays (`Forest.left_behind_aborted`).

So what an operation may leave depends on the calls around it, and its contract does
(`Forest.driving`).
-/

namespace TickTree

variable {K A α : Type}

/-- A call ticks or aborts, and this agent in its root only. -/
def Call.Drives (r : TreeId) (a : K) : Call K → Prop
  | .run t b | .abort t b => b = a → t = r
  | .remove .. | .update .. => False

/-- A request that calls for nothing else. -/
def Request.Drives (r : TreeId) (a : K) : Request K A → Prop
  | .call c => c.Drives r a
  | _ => True

/-- A call aborts an agent. -/
def Call.Aborts (a : K) (c : Call K) : Prop := ∃ t, c = .abort t a

theorem Call.not_aborts {a : K} {c : Call K} (hc : c.agent ≠ a) : ¬ c.Aborts a := by
  rintro ⟨t, rfl⟩
  exact hc rfl

variable [DecidableEq K] {r t u : TreeId} {a b : K} {q : Prop} {w w' v : World K A}

/-! ## The contract -/

/-- A reply is none of the exceptions: the agent is not refused in a linked tree that it is
suspended in, and not suspended amid its own abort. -/
def Call.Orderly (r : TreeId) (a : K) (calls : List (Call K)) :
    (c : Call K) → World K A → c.Reply → Prop
  | .run t b, w, reply => b = a →
      (t ≠ r → reply = .error .reentrant → ¬ w.Waits a t) ∧
        (t = r → (∃ c ∈ calls, c.Aborts a) → reply ≠ .ok .running)
  | _, _, _ => True

namespace Forest

variable {F : Forest K A} {s : AgentState}

/-- What holds of an agent whenever a hook issues a call amid these. Under the condition, its root
is ticking it. -/
structure Steady (F : Forest K A) (r : TreeId) (a : K) (calls : List (Call K)) (q : Prop)
    (w : World K A) : Prop where
  unpoisoned : w.Unpoisoned
  inReach : F.InReach a r w
  aborted : (∃ c ∈ calls, c.Aborts a) → w.Free a
  ticks : q → w.Ticks a r

/-- When a call is issued amid these calls. -/
inductive Issued (F : Forest K A) (r : TreeId) (a : K) (calls : List (Call K)) :
    Call K → World K A → Prop where
  | run {t : TreeId} {w : World K A} : w.Unpoisoned → F.InReach a t w →
      (t = r ∨ t < r ∧ w.Ticks a r) → Issued F r a calls (.run t a) w
  | abort {t : TreeId} {w : World K A} : w.Unpoisoned → F.InReach a t w →
      Issued F r a calls (.abort t a) w
  | runOther {t : TreeId} {b : K} {w : World K A} : b ≠ a → F.Steady r a calls False w →
      Issued F r a calls (.run t b) w
  | abortOther {t : TreeId} {b : K} {w : World K A} : b ≠ a → F.Steady r a calls False w →
      Issued F r a calls (.abort t b) w

/-- What a reply is like, and the worlds before and after it. -/
inductive Returns (F : Forest K A) (r : TreeId) (a : K) (calls : List (Call K))
    (w w' : World K A) : (c : Call K) → c.Reply → Prop where
  | refused {t : TreeId} : w'.trees = w.trees →
      Returns F r a calls w w' (.run t a) (.error .reentrant)
  | waiting {t : TreeId} : w'.Unpoisoned → (w.Ticks a r → w'.Ticks a r) → F.InReach a t w' →
      Returns F r a calls w w' (.run t a) (.ok .running)
  | free {c : Call K} {reply : c.Reply} : c.agent = a → w'.Unpoisoned →
      (w.Ticks a r → w'.Ticks a r) → w'.Free a → Returns F r a calls w w' c reply
  | other {c : Call K} {reply : c.Reply} : c.agent ≠ a → F.Steady r a calls (w.Ticks a r) w' →
      Returns F r a calls w w' c reply

/-- What operations are held to amid these calls. -/
def driving (F : Forest K A) (r : TreeId) (a : K) (calls : List (Call K)) : Contract K A where
  pre := F.Issued r a calls
  granted c w reply _ := c.Orderly r a calls w reply
  post c w reply w' := F.Returns r a calls w w' c reply

section

variable {calls : List (Call K)}

theorem Steady.same (hF : F.Descends) (h : F.Steady r a calls q w)
    (hsame : World.SameTo r a q w w') : F.Steady r a calls q w' where
  unpoisoned := hsame.unpoisoned h.unpoisoned
  inReach := h.inReach.same hF hsame
  aborted hc := hsame.free (h.aborted hc)
  ticks hq := hsame.ticks hq (h.ticks hq)

theorem Steady.inert (hF : F.Descends) : World.Inert (F.Steady r a calls q) where
  outside h htrees := h.same hF (World.sameTo_of_trees htrees)
  drawn {w} h t _ := h.same hF
    (World.sameTo_modifyTree w t (fun _ => rfl) (fun _ => rfl) fun _ _ _ hs => hs)

theorem Steady.imp {p : Prop} (h : F.Steady r a calls q w) (himp : p → w.Ticks a r) :
    F.Steady r a calls p w := ⟨h.unpoisoned, h.inReach, h.aborted, himp⟩

theorem steady_of_free (hw : w.Unpoisoned) (hfree : w.Free a) (hq : q → w.Ticks a r) :
    F.Steady r a calls q w := ⟨hw, inReach_of_free hfree, fun _ => hfree, hq⟩

/-- Where the root ticks an agent, it is suspended nowhere. -/
theorem Steady.free (h : F.Steady r a calls q w) (hq : q) : w.Free a := by
  refine h.inReach.free ?_
  rintro ⟨s, hs, -⟩
  rw [(h.ticks hq).2] at hs
  cases hs

theorem Steady.cons {c : Call K} (h : F.Steady r a calls q w) (hc : ¬ c.Aborts a) :
    F.Steady r a (c :: calls) q w where
  unpoisoned := h.unpoisoned
  inReach := h.inReach
  aborted := by
    rintro ⟨d, hd, hdaborts⟩
    rcases List.mem_cons.1 hd with rfl | hd
    · exact absurd hdaborts hc
    · exact h.aborted ⟨d, hd, hdaborts⟩
  ticks := h.ticks

theorem Steady.tail {c : Call K} (h : F.Steady r a (c :: calls) q w) :
    F.Steady r a calls q w :=
  ⟨h.unpoisoned, h.inReach, fun ⟨d, hd, hdaborts⟩ => h.aborted ⟨d, .tail c hd, hdaborts⟩, h.ticks⟩

/-- What holds of an agent whenever a hook issues a call that drives it holds after the call. -/
theorem lets_steady (hF : F.Descends) {c : Call K} (hc : c.Drives r a) :
    (F.driving r a calls).Lets (F.Steady r a calls q) c := by
  intro w hw
  cases c with
  | run t b =>
    by_cases hb : b = a
    · subst hb
      obtain rfl : t = r := hc rfl
      refine ⟨.run hw.unpoisoned hw.inReach (.inl rfl), fun reply w' hreply hreturns => ?_⟩
      cases hreturns with
      | refused htrees => exact (Steady.inert hF).outside hw htrees
      | waiting hunpoisoned hticks hreach =>
        exact ⟨hunpoisoned, hreach, fun haborts => absurd rfl ((hreply rfl).2 rfl haborts),
          fun hq => hticks (hw.ticks hq)⟩
      | free _ hunpoisoned hticks hfree =>
        exact steady_of_free hunpoisoned hfree fun hq => hticks (hw.ticks hq)
      | other hother => exact absurd rfl hother
    · refine ⟨.runOther hb (hw.imp False.elim), fun reply w' _ hreturns => ?_⟩
      cases hreturns with
      | refused | waiting => exact absurd rfl hb
      | free hagent => exact absurd hagent hb
      | other _ hsteady => exact hsteady.imp fun hq => hsteady.ticks (hw.ticks hq)
  | abort t b =>
    by_cases hb : b = a
    · subst hb
      obtain rfl : t = r := hc rfl
      refine ⟨.abort hw.unpoisoned hw.inReach, fun reply w' _ hreturns => ?_⟩
      cases hreturns with
      | free _ hunpoisoned hticks hfree =>
        exact steady_of_free hunpoisoned hfree fun hq => hticks (hw.ticks hq)
      | other hother => exact absurd rfl hother
    · refine ⟨.abortOther hb (hw.imp False.elim), fun reply w' _ hreturns => ?_⟩
      cases hreturns with
      | free hagent => exact absurd hagent hb
      | other _ hsteady => exact hsteady.imp fun hq => hsteady.ticks (hw.ticks hq)
  | remove | update => exact hc.elim

theorem Asks.steady (hF : F.Descends) (hasks : F.Asks (Request.Drives r a)) {index : Nat}
    {i : Instruction Nat K A} {task : RunnableTask K A}
    (hget : (F.tree t).program.get? index = some i) (hop : i.op = .task task) :
    task.Asks (Request.Allowed (F.driving r a calls) (F.Steady r a calls q)) := by
  obtain ⟨op, yes, no⟩ := i
  obtain rfl : op = .task task := hop
  refine (hasks t index task yes no hget).imp fun request hrequest => ?_
  cases request with
  | call c => exact lets_steady hF hrequest
  | _ => trivial

/-! ## Other agents -/

variable {n : Nat}

theorem runCourse_other (hF : F.Descends) (hasks : F.Asks (Request.Drives r a)) (hb : b ≠ a)
    (hw : F.Steady r a calls False w) :
    (F.runCourse n t b w).Meets (F.driving r a (.run t b :: calls))
      fun reply w' => F.Returns r a calls w w' (.run t b) reply := by
  have hstart : F.Steady r a (.run t b :: calls) (w.Ticks a r) w :=
    (hw.cons (Call.not_aborts (c := .run t b) hb)).imp id
  rw [runCourse]
  split
  · exact .other hb (hstart.tail.same hF (World.sameTo_of_trees rfl))
  · rename_i hidle
    have hroot : w.Ticks a r → t ≠ r := by
      rintro ⟨hrunning, -⟩ rfl
      exact hidle hrunning
    have hout : F.Steady r a (.run t b :: calls) (w.Ticks a r) ((w.enter t b).checkOut t b) :=
      hstart.same hF ((World.sameTo_enter w t b).trans (World.sameTo_checkOut _ t hb))
    rw [if_neg (by simp [hw.unpoisoned t])]
    refine (Tick.performCourse_meets (Steady.inert hF) (hasks.steady hF)
      (fun _ _ => lets_steady hF fun hba => absurd hba hb) hout n _).bind fun answer w₁ hw₁ => ?_
    rw [if_neg (by simp [hw₁.unpoisoned t])]
    exact .other hb (hw₁.tail.same hF
      ((World.sameTo_checkIn w₁ t hb answer.2).trans (World.sameTo_leave _ b answer.1 hroot)))

theorem abortCourse_other (hF : F.Descends) (hasks : F.Asks (Request.Drives r a)) (hb : b ≠ a)
    (hw : F.Steady r a calls False w) :
    (F.abortCourse t b w).Meets (F.driving r a (.abort t b :: calls))
      fun reply w' => F.Returns r a calls w w' (.abort t b) reply := by
  have hstart : F.Steady r a (.abort t b :: calls) (w.Ticks a r) w :=
    (hw.cons (Call.not_aborts (c := .abort t b) hb)).imp id
  have hcancel : ∀ s, (F.cancelCourse t b s (w.checkOut t b)).Meets
      (F.driving r a (.abort t b :: calls))
        fun _ w' => F.Steady r a (.abort t b :: calls) (w.Ticks a r) w' := by
    intro s
    have hout := hstart.same hF (World.sameTo_checkOut w t hb)
    rw [cancelCourse]
    split
    · rename_i task hawaited
      obtain ⟨i, hget, hop⟩ := Tree.awaited_inv hawaited
      exact Tick.endCourse_meets (Steady.inert hF)
        (fun hfinish => (hasks.steady hF hget hop).finish hfinish _ _) hout _
    · rename_i link _
      obtain ⟨hpre, hafter⟩ :=
        lets_steady hF (c := .abort link.tree b) (fun hba => absurd hba hb) _ hout
      exact ⟨hpre, hafter⟩
    · exact hout
  rw [abortCourse, if_neg (by simp [hw.unpoisoned t])]
  cases w.agent? t b with
  | none => exact .other hb hstart.tail
  | some s =>
    refine (hcancel s).bind fun board w₁ hw₁ => ?_
    rw [if_neg (by simp [hw₁.unpoisoned t])]
    exact .other hb (hw₁.tail.same hF (World.sameTo_checkIn w₁ t hb _))

/-! ## The agent itself -/

/-- A walk of the agent goes on while it is suspended nowhere, or it is about to resume a link
within whose reach it is. -/
inductive Walks (F : Forest K A) (r : TreeId) (a : K) (t : TreeId) (calls : List (Call K)) :
    Frame → World K A → Prop where
  | free {f : Frame} {w : World K A} : F.Steady r a calls True w → Walks F r a t calls f w
  | resumed {f : Frame} {w : World K A} {i : Instruction Nat K A} {link : Link} :
      (F.tree t).program.get? f.cursor = some i → i.op = .subTree link → f.spent = 0 →
      w.Unpoisoned → w.Ticks a r → F.InReach a link.tree w → Walks F r a t calls f w

/-- What a walk of the agent comes to. If it does not end with Running, the agent is suspended
nowhere. -/
def Comes (F : Forest K A) (r : TreeId) (a : K) (t : TreeId) (calls : List (Call K)) :
    Progress → World K A → Prop
  | .underway f, w => F.Walks r a t calls f w
  | .ended result s, w => w.Unpoisoned ∧ w.Ticks a r ∧
      ((result = .ok .running ∧ F.Holds a t s w) ∨ (w.Free a ∧ s.paused = false))

theorem Steady.logged (hF : F.Descends) (h : F.Steady r a calls q w) (e : Event K) :
    F.Steady r a calls q (w.log e) := (Steady.inert hF).outside h rfl

theorem Steady.comes_rewound (h : F.Steady r a calls True w) (result : Except RunError Status)
    (s : AgentState) : F.Comes r a t calls (.ended result s.rewind) w :=
  ⟨h.unpoisoned, h.ticks trivial, .inr ⟨h.free trivial, rfl⟩⟩

theorem Steady.comes_follow (h : F.Steady r a calls True w) (f : Frame)
    (answer : Move × AgentState) : F.Comes r a t calls (Tick.follow f answer) w := by
  obtain ⟨move, s⟩ := answer
  cases move with
  | goto index => exact .free h
  | suspend => exact ⟨h.unpoisoned, h.ticks trivial, .inl ⟨rfl, holds_of_free (h.free trivial)⟩⟩
  | stop e => exact h.comes_rewound _ s

/-- A link may be followed where all that the agent is suspended on is within its reach, and what
it comes to is as for the whole walk. -/
theorem linkCourse_own (hF : F.Descends) {f : Frame} {i : Instruction Nat K A} {link : Link}
    (hget : (F.tree t).program.get? f.cursor = some i) (hop : i.op = .subTree link)
    (hlink : link.tree < r) (hw : w.Unpoisoned) (hticks : w.Ticks a r)
    (hreach : F.InReach a link.tree w) :
    (((F.tickOf t a).dispatchCourse f.cursor f.resumed i f.state w).map (Tick.follow f)).Meets
      (F.driving r a calls) (F.Comes r a t calls) := by
  simp only [Tick.dispatchCourse, hop]
  refine ⟨.run hw hreach (.inr ⟨hlink, hticks⟩), fun result w' hreply hreturns => ?_⟩
  cases hreturns with
  | refused htrees =>
    have hfree : w.Free a := hreach.free ((hreply rfl).1 (Nat.ne_of_lt hlink) rfl)
    have hsteady : F.Steady r a calls True w' :=
      (Steady.inert hF).outside (steady_of_free hw hfree fun _ => hticks) htrees
    exact (hsteady.logged hF (.linkFailed t a f.cursor .reentrant)).comes_rewound _ f.state
  | waiting hunpoisoned hkept hwithin =>
    exact ⟨hunpoisoned, hkept hticks,
      .inl ⟨rfl, fun u hu => ⟨link, hop ▸ Tree.awaited_paused rfl hget, hwithin u hu⟩⟩⟩
  | free _ hunpoisoned hkept hfree =>
    have hsteady : F.Steady r a calls True w' :=
      steady_of_free hunpoisoned hfree fun _ => hkept hticks
    cases result with
    | ok status => exact hsteady.comes_follow f _
    | error e =>
      exact (hsteady.logged hF (.linkFailed t a f.cursor e)).comes_rewound _ f.state
  | other hother => exact absurd rfl hother

theorem advanceCourse_own (hF : F.Descends) (hasks : F.Asks (Request.Drives r a)) (htr : t ≤ r)
    {f : Frame} (hf : F.Walks r a t calls f w) :
    ((F.tickOf t a).advanceCourse f w).Meets (F.driving r a calls) (F.Comes r a t calls) := by
  rw [Tick.advanceCourse]
  cases hf with
  | free hsteady =>
    cases hget : (F.tree t).program.get? f.cursor with
    | none => exact hsteady.comes_rewound _ f.state
    | some i =>
      cases (F.tickOf t a).exhausted f with
      | some limit =>
        exact (hsteady.logged hF (.limitReached t a f.cursor limit)).comes_rewound _ f.state
      | none =>
        have hlogged := hsteady.logged hF (.dispatched t a f.cursor)
        by_cases hlink : ∃ link, i.op = .subTree link
        · obtain ⟨link, hop⟩ := hlink
          exact linkCourse_own hF hget hop (Nat.lt_of_lt_of_le (hF hget hop) htr)
            hlogged.unpoisoned (hlogged.ticks trivial) (inReach_of_free (hlogged.free trivial))
        · refine Course.Meets.map ((Tick.dispatchCourse_meets (Steady.inert hF)
            (hasks.steady hF hget) (fun link hop => hlink ⟨link, hop⟩) hlogged f.resumed
            f.state).imp ?_)
          rintro answer w' ⟨-, hw'⟩
          exact hw'.comes_follow f answer
  | @resumed i link hget hop hspent hunpoisoned hticks hreach =>
    simp only [hget, Tick.exhausted_unspent _ hspent]
    have hlogged : World.SameTo r a True w (w.log (.dispatched t a f.cursor)) :=
      World.sameTo_of_trees rfl
    exact linkCourse_own hF hget hop (Nat.lt_of_lt_of_le (hF hget hop) htr)
      (hlogged.unpoisoned hunpoisoned) (hlogged.ticks trivial hticks) (hreach.same hF hlogged)

theorem performCourse_own (hF : F.Descends) (hasks : F.Asks (Request.Drives r a)) (htr : t ≤ r)
    {s : AgentState} (hw : w.Unpoisoned) (hticks : w.Ticks a r) (hholds : F.Holds a t s w) :
    ((F.tickOf t a).performCourse n s w).Meets (F.driving r a calls)
      fun answer => F.Comes r a t calls (.ended answer.1 answer.2) := by
  rw [Tick.performCourse]
  split
  · rename_i hout
    have hfree : w.Free a := by
      refine hholds.free fun link hawaited => ?_
      obtain ⟨i, hget, -⟩ := Tree.awaited_inv hawaited
      exact absurd (Program.lt_length_of_get? hget) (Nat.not_lt.2 hout)
    exact ⟨hw, hticks, .inr ⟨hfree, rfl⟩⟩
  · have hbegin : F.Walks r a t calls (.begin s) w := by
      by_cases hlink : ∃ link, (F.tree t).awaited s = some (.subTree link)
      · obtain ⟨link, hawaited⟩ := hlink
        obtain ⟨i, hget, hop⟩ := Tree.awaited_inv hawaited
        exact .resumed hget hop rfl hw hticks (hholds.inReach hawaited)
      · have hfree : w.Free a := hholds.free fun link hawaited => hlink ⟨link, hawaited⟩
        exact .free (steady_of_free hw hfree fun _ => hticks)
    refine Tick.walkCourse_meets (J := F.Walks r a t calls) (fun f w hf => ?_) n hbegin
    exact (advanceCourse_own hF hasks htr hf).imp fun p w' hp => by cases p <;> exact hp

theorem runCourse_own (hF : F.Descends) (hasks : F.Asks (Request.Drives r a)) (hw : w.Unpoisoned)
    (hreach : F.InReach a t w) (hroot : t = r ∨ t < r ∧ w.Ticks a r) :
    (F.runCourse n t a w).Meets (F.driving r a (.run t a :: calls))
      fun reply w' => F.Returns r a calls w w' (.run t a) reply := by
  rw [runCourse]
  split
  · exact .refused rfl
  · rename_i hidle
    have htr : t ≤ r := hroot.elim Nat.le_of_eq fun h => Nat.le_of_lt h.1
    -- A root that ticks the agent already is another tree.
    have hother : w.Ticks a r → t ≠ r := by
      rintro ⟨hrunning, -⟩ rfl
      exact hidle hrunning
    have henter : World.SameTo r a True w (w.enter t a) := World.sameTo_enter w t a
    have hticks : ((w.enter t a).checkOut t a).Ticks a r := by
      rcases hroot with rfl | ⟨-, hticks⟩
      · exact ⟨by simp, World.agent?_checkOut_self _ t a⟩
      · exact (henter.ticks trivial hticks).checkOut t
    have hstate : (w.enter t a).state t a = w.state t a := by
      rw [World.state, World.state, henter.agent?]
    rw [if_neg (by simp [hw t])]
    refine (performCourse_own hF hasks htr ((henter.unpoisoned hw).checkOut t a) hticks
      (hstate ▸ (hreach.same hF henter).checkOut)).bind fun answer w₁ hcomes => ?_
    obtain ⟨result, s⟩ := answer
    obtain ⟨hunpoisoned, hticks₁, hends⟩ := hcomes
    have hleave : World.SameTo r a (w.Ticks a r) (w₁.checkIn t a s)
        ((w₁.checkIn t a s).leave t a result) := World.sameTo_leave _ a result hother
    have hunpoisoned' := hleave.unpoisoned (hunpoisoned.checkIn t a s)
    have hkept : w.Ticks a r → ((w₁.checkIn t a s).leave t a result).Ticks a r :=
      fun hticks => hleave.ticks hticks (hticks₁.checkIn (hother hticks) s)
    rw [if_neg (by simp [hunpoisoned t])]
    rcases hends with ⟨rfl, hholds⟩ | ⟨hfree, hs⟩
    · exact .waiting hunpoisoned' hkept ((hholds.checkIn hF hunpoisoned).same hF hleave)
    · exact .free rfl hunpoisoned' hkept (hleave.free (hfree.checkIn hs t))

theorem cancelCourse_own (hF : F.Descends) (hasks : F.Asks (Request.Drives r a)) {s : AgentState}
    (hw : w.Unpoisoned) (hticks : q → w.Ticks a r) (hholds : F.Holds a t s w) :
    (F.cancelCourse t a s w).Meets (F.driving r a (.abort t a :: calls))
      fun _ w' => w'.Unpoisoned ∧ w'.Free a ∧ (q → w'.Ticks a r) := by
  rw [cancelCourse]
  split
  · rename_i task hawaited
    have hfree : w.Free a := hholds.free fun link hlink => by
      rw [hawaited] at hlink
      cases hlink
    have hsteady : F.Steady r a (.abort t a :: calls) q w := steady_of_free hw hfree hticks
    obtain ⟨i, hget, hop⟩ := Tree.awaited_inv hawaited
    refine (Tick.endCourse_meets (Steady.inert hF)
      (fun hfinish => (hasks.steady hF hget hop).finish hfinish _ _) hsteady _).imp ?_
    exact fun _ w' h => ⟨h.unpoisoned, h.aborted ⟨_, .head _, t, rfl⟩, h.ticks⟩
  · rename_i link hawaited
    refine ⟨.abort hw (hholds.inReach hawaited), fun reply w' _ hreturns => ?_⟩
    cases hreturns with
    | free _ hunpoisoned hkept hfree => exact ⟨hunpoisoned, hfree, fun hq => hkept (hticks hq)⟩
    | other hother => exact absurd rfl hother
  · rename_i hlink
    exact ⟨hw, hholds.free hlink, hticks⟩

theorem abortCourse_own (hF : F.Descends) (hasks : F.Asks (Request.Drives r a)) (hw : w.Unpoisoned)
    (hreach : F.InReach a t w) :
    (F.abortCourse t a w).Meets (F.driving r a (.abort t a :: calls))
      fun reply w' => F.Returns r a calls w w' (.abort t a) reply := by
  rw [abortCourse, if_neg (by simp [hw t])]
  cases hagent : w.agent? t a with
  | none =>
    refine .free rfl hw id (hreach.free ?_)
    rintro ⟨s, hs, -⟩
    rw [hagent] at hs
    cases hs
  | some s =>
    have hother : w.Ticks a r → t ≠ r := by
      rintro ⟨-, hout⟩ rfl
      rw [hagent] at hout
      cases hout
    refine (cancelCourse_own hF hasks (hw.checkOut t a) (q := w.Ticks a r) (·.checkOut t)
      (World.state_of_agent? hagent ▸ hreach.checkOut)).bind fun board w₁ hw₁ => ?_
    obtain ⟨hunpoisoned, hfree, hkept⟩ := hw₁
    rw [if_neg (by simp [hunpoisoned t])]
    exact .free rfl (hunpoisoned.checkIn t a _)
      (fun hticks => (hkept hticks).checkIn (hother hticks) _) (hfree.checkIn rfl t)

/-- Each operation that drives agents as it should meets its contract. -/
theorem fulfils_driving (hF : F.Descends) (hasks : F.Asks (Request.Drives r a)) :
    F.FulfilsAmid (F.driving r a) := by
  intro n c calls w hissued
  refine Course.Meets.imp ?_ fun reply w' hreturns _ => hreturns
  cases hissued with
  | run hw hreach hroot => exact runCourse_own hF hasks hw hreach hroot
  | abort hw hreach => exact abortCourse_own hF hasks hw hreach
  | runOther hb hw => exact runCourse_other hF hasks hb hw
  | abortOther hb hw => exact abortCourse_other hF hasks hb hw

end

end Forest

/-! ## Operations one after the other -/

/-- Within an errand no link is refused that the agent is about to resume, and no tick of the
agent inside its own abort suspends it. -/
structure Errand.Orderly (r : TreeId) (a : K) (root : Errand K A) : Prop where
  resumed : ∀ {t w w' inner}, root.Within (.mk (.run t a) (.error .reentrant) w w' inner) →
    t ≠ r → ¬ w.Waits a t
  aborted : ∀ {around later w w' inner},
    root.At around later (.mk (.run r a) (.ok .running) w w' inner) →
      ∀ d ∈ around, ¬ d.call.Aborts a

theorem Errand.Orderly.reply {root x : Errand K A} {around later : List (Errand K A)}
    (h : root.Orderly r a) (hx : root.At around later x) :
    x.call.Orderly r a (around.map Errand.call) x.before x.reply := by
  obtain ⟨c, reply, w, w', inner⟩ := x
  cases c with
  | run t b =>
    rintro rfl
    refine ⟨fun htr hreply => ?_, fun htr hcalls hreply => ?_⟩
    · obtain rfl : reply = .error .reentrant := hreply
      exact h.resumed ⟨_, _, hx⟩ htr
    · obtain rfl : t = r := htr
      obtain rfl : reply = .ok .running := hreply
      obtain ⟨c, hc, haborts⟩ := hcalls
      obtain ⟨d, hd, rfl⟩ := List.mem_map.1 hc
      exact h.aborted hx d hd haborts
  | abort | remove | update => trivial

/-- An errand without refusals and aborts of the agent is orderly. -/
theorem Errand.orderly_of_within {root : Errand K A}
    (h : ∀ x, root.Within x → ¬ x.call.Aborts a ∧
      ∀ {t w w' inner}, x ≠ .mk (.run t a) (.error .reentrant) w w' inner) :
    root.Orderly r a where
  resumed hx := absurd rfl (h _ hx).2
  aborted hat d hd := (h d (hat.within_around d hd)).1

namespace Forest

variable {F : Forest K A}

/-- Errands are done one after the other. What lies outside the trees may change in between. -/
inductive Series (F : Forest K A) : World K A → List (Errand K A) → World K A → Prop where
  | nil {w v : World K A} : v.trees = w.trees → Series F w [] v
  | cons {n : Nat} {c : Call K} {reply : c.Reply} {w v v' u : World K A}
      {inner es : List (Errand K A)} :
      v.trees = w.trees → F.Does n (.mk c reply v v' inner) → Series F v' es u →
      Series F w (.mk c reply v v' inner :: es) u

section

variable (hF : F.Descends) (hasks : F.Asks (Request.Drives r a))
include hF hasks

/-- An errand that drives an agent as it should begins and ends in worlds where all that the
agent is suspended on is within reach of its root, and returns as it should. -/
theorem Does.steady {n : Nat} {e : Errand K A} (h : F.Does n e) (hdrives : e.call.Drives r a)
    (horderly : e.Orderly r a) (hw : F.Steady r a [] False e.before) :
    F.Steady r a [] False e.after ∧ ∀ {around later x}, e.At around later x →
      F.Returns r a (around.map Errand.call) x.before x.after x.call x.reply := by
  have hat : ∀ {around later x}, e.At around later x →
      x.call.Orderly r a (around.map Errand.call) x.before x.reply :=
    fun hx => horderly.reply hx
  obtain ⟨hpre, hafter⟩ := lets_steady hF hdrives e.before hw
  have hall := fun {around later x} (hx : e.At around later x) =>
    h.amid (C := F.driving r a) (fulfils_driving hF hasks) [] hpre
      (fun hx => (List.append_nil _).symm ▸ hat hx) hx
  simp only [List.append_nil] at hall
  exact ⟨hafter e.reply e.after (hat .root) (hall .root).2, fun hx => (hall hx).2⟩

theorem Series.steady {es : List (Errand K A)} (h : F.Series w es v)
    (hdrives : ∀ e ∈ es, e.call.Drives r a) (horderly : ∀ e ∈ es, e.Orderly r a)
    (hw : F.Steady r a [] False w) :
    F.Steady r a [] False v ∧ ∀ e ∈ es, ∀ {around later x}, e.At around later x →
      F.Returns r a (around.map Errand.call) x.before x.after x.call x.reply := by
  induction h with
  | nil htrees => exact ⟨(Steady.inert hF).outside hw htrees, nofun⟩
  | cons htrees hdoes _ ih =>
    obtain ⟨hdrive, hdrives⟩ := List.forall_mem_cons.1 hdrives
    obtain ⟨horder, horderly⟩ := List.forall_mem_cons.1 horderly
    obtain ⟨hafter, hreturns⟩ :=
      hdoes.steady hF hasks hdrive horder ((Steady.inert hF).outside hw htrees)
    obtain ⟨hlast, hothers⟩ := ih hdrives horderly hafter
    exact ⟨hlast, List.forall_mem_cons.2 ⟨hreturns, hothers⟩⟩

/-- Over any operations that tick and abort an agent in its root only, also from within hooks,
the agent is suspended nowhere but where an abort of it in the root reaches it. After a tick of
the root that has failed, and was not refused, it is suspended nowhere: the next tick resumes
nothing, and there is nothing for an abort to cancel. -/
theorem free_of_error {es : List (Errand K A)} (hunpoisoned : w.Unpoisoned) (hfree : w.Free a)
    (hseries : F.Series w es w') (hdrives : ∀ e ∈ es, e.call.Drives r a)
    (horderly : ∀ e ∈ es, e.Orderly r a) :
    F.InReach a r w' ∧ ∀ e ∈ es, ∀ {v v' err inner},
      e.Within (.mk (.run r a) (.error err) v v' inner) → err ≠ .reentrant →
        v'.Free a ∧ ∀ t, (Frame.begin (v'.state t a)).resumed = false ∧
          (F.tree t).awaited (v'.state t a) = none := by
  have hsteady : F.Steady r a [] False w := steady_of_free hunpoisoned hfree False.elim
  obtain ⟨hlast, hreturns⟩ := hseries.steady hF hasks hdrives horderly hsteady
  refine ⟨hlast.inReach, fun e he v v' err inner hwithin herr => ?_⟩
  obtain ⟨around, later, hat⟩ := hwithin
  have hfree : v'.Free a := by
    cases hreturns e he hat with
    | refused => exact absurd rfl herr
    | free _ _ _ hfree => exact hfree
    | other hother => exact absurd rfl hother
  exact ⟨hfree, fun t => ⟨hfree.unpaused t, Tree.awaited_unpaused (hfree.unpaused t)⟩⟩

end

/-- An agent is suspended in a linked tree. Resumed there, it uses up the limit of the linked
tree. -/
theorem free_of_error_resumed :
    let waits : RunnableTask Unit Bool := ⟨"waits", none, fun _ => .ask .ambient fun again =>
      .done (.ok (bif again then .success else .running)), none⟩
    let F : Forest Unit Bool :=
      ⟨[{ program := ⟨[⟨.task waits, 1, 3⟩, ⟨.hangingSucceed, 1, 1⟩]⟩,
          config := { stepLimit := some 1 } },
        { program := ⟨[⟨.subTree ⟨0, 1⟩, 1, 2⟩]⟩ }]⟩
    let w : World Unit Bool := { ambient := false }
    F.Descends ∧ F.Asks (Request.Drives 1 ()) ∧ w.Unpoisoned ∧ w.Free () ∧
      ∃ first second w', F.Series w [first, second] w' ∧
        (∀ e ∈ [first, second], e.call.Drives 1 () ∧ e.Orderly 1 ()) ∧
        first.after.Waits () 0 ∧ ∃ v inner,
          second = .mk (.run 1 ()) (.error (.subTree 0 (.stepLimit 1))) v w' inner ∧
            w'.Free () := by
  intro waits F w
  have hwaits : waits.Asks (Request.Drives 1 ()) :=
    ⟨nofun, fun _ => .ask trivial fun _ => .done _, nofun⟩
  have hasks : F.Asks (Request.Drives 1 ()) := by
    intro t index task yes no hget
    match t, index, hget with
    | 0, 0, hget => cases hget; exact hwaits
    | 0, 1, hget | 1, 0, hget => cases hget
    | 0, index + 2, hget | 1, index + 1, hget | t + 2, index, hget => cases hget
  have hF : F.Descends := by
    intro t index i link hget hop
    match t, index, hget with
    | 0, 0, hget | 0, 1, hget => cases hget; cases hop
    | 1, 0, hget => cases hget; cases hop; decide
    | 0, index + 2, hget | 1, index + 1, hget | t + 2, index, hget => cases hget
  let suspended : TreeState Unit := { agents := .ofList [((), { paused := true })] }
  let v : World Unit Bool := { trees := .ofList [(1, suspended), (0, suspended)], ambient := true }
  obtain ⟨w₁, v₁, v₁', hfirst, hbetween, hsuspended⟩ : ∃ w₁ v₁ v₁',
      F.Does 4 (.mk (.run 1 ()) (.ok .running) w w₁
        [.mk (.run 0 ()) (.ok .running) v₁ v₁' []]) ∧ v.trees = w₁.trees ∧ w₁.Waits () 0 :=
    ⟨_, _, _, .call .done .done, rfl, _, rfl, rfl⟩
  obtain ⟨w₂, v₂, v₂', hsecond⟩ : ∃ w₂ v₂ v₂',
      F.Does 4 (.mk (.run 1 ()) (.error (.subTree 0 (.stepLimit 1))) v w₂
        [.mk (.run 0 ()) (.error (.stepLimit 1)) v₂ v₂' []]) :=
    ⟨_, _, _, .call .done .done⟩
  let first : Errand Unit Bool := .mk (.run 1 ()) (.ok .running) w w₁
    [.mk (.run 0 ()) (.ok .running) v₁ v₁' []]
  let second : Errand Unit Bool := .mk (.run 1 ()) (.error (.subTree 0 (.stepLimit 1))) v w₂
    [.mk (.run 0 ()) (.error (.stepLimit 1)) v₂ v₂' []]
  have hseries : F.Series w [first, second] w₂ :=
    .cons rfl hfirst (.cons hbetween hsecond (.nil rfl))
  have hdrives : ∀ e ∈ [first, second], e.call.Drives 1 () :=
    List.forall_mem_cons.2 ⟨fun _ => rfl, List.forall_mem_singleton.2 fun _ => rfl⟩
  have hpair : ∀ {reply reply' : Except RunError Status} {w w' v v' : World Unit Bool},
      reply ≠ .error .reentrant → reply' ≠ .error .reentrant →
        (Errand.mk (.run 1 ()) reply w w' [.mk (.run 0 ()) reply' v v' []]).Orderly 1 () := by
    intro reply reply' w w' v v' hreply hreply'
    refine Errand.orderly_of_within fun x hx => ?_
    rcases hx.cases with rfl | ⟨e, he, hx⟩
    · exact ⟨nofun, fun h => by cases h; exact hreply rfl⟩
    · obtain rfl := List.mem_singleton.1 he
      rcases hx.cases with rfl | ⟨e, he, -⟩
      · exact ⟨nofun, fun h => by cases h; exact hreply' rfl⟩
      · cases he
  have horderly : ∀ e ∈ [first, second], e.Orderly 1 () :=
    List.forall_mem_cons.2 ⟨hpair nofun nofun, List.forall_mem_singleton.2 (hpair nofun nofun)⟩
  have hfree : w.Free () := by
    rintro t ⟨s, hs, -⟩
    cases hs
  have herror := (free_of_error hF hasks (fun _ => rfl) hfree hseries hdrives horderly).2 second
    (.tail first (.head _)) (.self second) nofun
  exact ⟨hF, hasks, fun _ => rfl, hfree, first, second, w₂, hseries,
    fun e he => ⟨hdrives e he, horderly e he⟩, hsuspended, v, _, rfl, herror.1⟩

/-- While one agent is suspended in a linked tree, a hook of another agent in that tree ticks it in
its root. The tick fails and the root forgets it, but it stays suspended in the linked tree. -/
theorem left_behind :
    let calls : RunnableTask Bool Unit := ⟨"calls", none, fun a =>
      if a then .done (.ok .running)
      else .ask (.call (.run 1 true)) fun _ => .done (.ok .success), none⟩
    let linked : Program Bool Unit := ⟨[⟨.subTree ⟨0, 1⟩, 1, 2⟩]⟩
    let F : Forest Bool Unit :=
      ⟨[{ program := ⟨[⟨.task calls, 1, 2⟩]⟩ }, { program := linked }, { program := linked }]⟩
    let root : Bool → TreeId := fun a => if a then 1 else 2
    let w : World Bool Unit := { ambient := () }
    F.Descends ∧ (∀ a, F.Asks (Request.Drives (root a) a)) ∧
      ∃ first second w', F.Series w [first, second] w' ∧
        (∀ e ∈ [first, second], ∀ a, e.call.Drives (root a) a) ∧
        ∃ v v' inner,
          second.Within (.mk (.run 1 true) (.error (.subTree 0 .reentrant)) v v' inner) ∧
            v'.Waits true 0 ∧ ¬ F.Reaches true v' 1 0 := by
  intro calls linked F root w
  have hF : F.Descends := by
    intro t index i link hget hop
    match t, index, hget with
    | 0, 0, hget => cases hget; cases hop
    | 1, 0, hget | 2, 0, hget => cases hget; cases hop; decide
    | 0, index + 1, hget | 1, index + 1, hget | 2, index + 1, hget | t + 3, index, hget =>
      cases hget
  have hcalls : ∀ a, calls.Asks (Request.Drives (root a) a) := by
    refine fun a => ⟨nofun, fun b => ?_, nofun⟩
    cases b with
    | true => exact .done _
    | false => exact .ask (by rintro rfl; rfl) fun _ => .done _
  have hasks : ∀ a, F.Asks (Request.Drives (root a) a) := by
    intro a t index task yes no hget
    match t, index, hget with
    | 0, 0, hget => cases hget; exact hcalls a
    | 1, 0, hget | 2, 0, hget => cases hget
    | 0, index + 1, hget | 1, index + 1, hget | 2, index + 1, hget | t + 3, index, hget =>
      cases hget
  let suspended : TreeState Bool := { agents := .ofList [(true, { paused := true })] }
  let v : World Bool Unit := { trees := .ofList [(1, suspended), (0, suspended)], ambient := () }
  obtain ⟨w₁, v₁, v₁', hfirst, hbetween⟩ : ∃ w₁ v₁ v₁',
      F.Does 4 (.mk (.run 1 true) (.ok .running) w w₁
        [.mk (.run 0 true) (.ok .running) v₁ v₁' []]) ∧ v.trees = w₁.trees :=
    ⟨_, _, _, .call .done .done, rfl⟩
  obtain ⟨w₂, v₂, v₂', v₃, v₃', v₄, v₄', hsecond, hwaits, hroot⟩ : ∃ w₂ v₂ v₂' v₃ v₃' v₄ v₄',
      F.Does 5 (.mk (.run 2 false) (.ok .success) v w₂
        [.mk (.run 0 false) (.ok .success) v₂ v₂'
          [.mk (.run 1 true) (.error (.subTree 0 .reentrant)) v₃ v₃'
            [.mk (.run 0 true) (.error .reentrant) v₄ v₄' []]]]) ∧
      v₃'.Waits true 0 ∧ v₃'.agent? 1 true = some {} :=
    ⟨_, _, _, _, _, _, _, .call (.call (.call .done .done) .done) .done, ⟨_, rfl, rfl⟩, rfl⟩
  have hlost : ¬ F.Reaches true v₃' 1 0 := by
    intro hreach
    obtain ⟨-, s, hs, hzero | ⟨link, hawaited, -⟩⟩ := hreach.inv
    · cases hzero
    · rw [hroot] at hs
      cases hs
      cases Tree.paused_of_awaited hawaited
  let failed : Errand Bool Unit := .mk (.run 1 true) (.error (.subTree 0 .reentrant)) v₃ v₃'
    [.mk (.run 0 true) (.error .reentrant) v₄ v₄' []]
  let second : Errand Bool Unit := .mk (.run 2 false) (.ok .success) v w₂
    [.mk (.run 0 false) (.ok .success) v₂ v₂' [failed]]
  have hwithin : second.Within failed :=
    ⟨_, _, .inner (.inner .root (show second.inner = [] ++ _ :: [] from rfl))
      (show _ = [] ++ failed :: [] from rfl)⟩
  exact ⟨hF, hasks, _, second, w₂, .cons rfl hfirst (.cons hbetween hsecond (.nil rfl)),
    List.forall_mem_cons.2
      ⟨by rintro a rfl; rfl, List.forall_mem_singleton.2 (by rintro a rfl; rfl)⟩,
    v₃, v₃', _, hwithin, hwaits, hlost⟩

/-- The finish hook of an aborted task ticks the agent again, and it is suspended in a linked tree.
The abort rewinds the root, and a later tick of it uses up its limit. -/
theorem left_behind_aborted :
    let waits : RunnableTask Unit Nat := ⟨"waits", none, fun _ => .done (.ok .running), none⟩
    let stages : RunnableTask Unit Nat := ⟨"stages", none, fun _ => .ask .ambient fun stage =>
      .done (.ok (match stage with | 0 => .running | 1 => .success | _ => .failure)),
      some fun _ _ => .ask (.call (.run 1 ())) fun _ => .done ()⟩
    let F : Forest Unit Nat :=
      ⟨[{ program := ⟨[⟨.task waits, 1, 2⟩]⟩ },
        { program := ⟨[⟨.task stages, 1, 2⟩, ⟨.subTree ⟨0, 1⟩, 3, 4⟩, ⟨.hangingSucceed, 2, 2⟩]⟩,
          config := { stepLimit := some 2 } }]⟩
    let w : World Unit Nat := { ambient := 0 }
    F.Descends ∧ F.Asks (Request.Drives 1 ()) ∧
      ∃ first second third w', F.Series w [first, second, third] w' ∧
        (∀ e ∈ [first, second, third], e.call.Drives 1 ()) ∧
        ∃ v inner, third = .mk (.run 1 ()) (.error (.stepLimit 2)) v w' inner ∧
          w'.Waits () 0 := by
  intro waits stages F w
  have hF : F.Descends := by
    intro t index i link hget hop
    match t, index, hget with
    | 0, 0, hget | 1, 0, hget | 1, 2, hget => cases hget; cases hop
    | 1, 1, hget => cases hget; cases hop; decide
    | 0, index + 1, hget | 1, index + 3, hget | t + 2, index, hget => cases hget
  have hasks : F.Asks (Request.Drives 1 ()) := by
    intro t index task yes no hget
    match t, index, hget with
    | 0, 0, hget => cases hget; exact ⟨nofun, fun _ => .done _, nofun⟩
    | 1, 0, hget =>
      cases hget
      refine ⟨nofun, fun _ => .ask trivial fun _ => .done _, fun hfinish _ _ => ?_⟩
      cases hfinish
      exact .ask (fun _ => rfl) fun _ => .done _
    | 1, 1, hget | 1, 2, hget => cases hget
    | 0, index + 1, hget | 1, index + 3, hget | t + 2, index, hget => cases hget
  let suspended : TreeState Unit := { agents := .ofList [((), { paused := true })] }
  let rewound : TreeState Unit := { agents := .ofList [((), {})] }
  let v : World Unit Nat := { trees := .ofList [(1, suspended)], ambient := 1 }
  let u : World Unit Nat := { trees := .ofList [(1, rewound), (0, suspended)], ambient := 2 }
  obtain ⟨w₁, hfirst, hbetween⟩ : ∃ w₁,
      F.Does 4 (.mk (.run 1 ()) (.ok .running) w w₁ []) ∧ v.trees = w₁.trees :=
    ⟨_, .done, rfl⟩
  obtain ⟨w₂, v₁, v₁', v₂, v₂', v₃, v₃', hsecond, hbetween'⟩ : ∃ w₂ v₁ v₁' v₂ v₂' v₃ v₃',
      F.Does 5 (.mk (.abort 1 ()) () v w₂ [.mk (.run 1 ()) (.ok .running) v₁ v₁'
        [.mk (.run 1 ()) (.error .reentrant) v₂ v₂' [],
          .mk (.run 0 ()) (.ok .running) v₃ v₃' []]]) ∧ u.trees = w₂.trees :=
    ⟨_, _, _, _, _, _, _, .call (.call .done (.call .done .done)) .done, rfl⟩
  obtain ⟨w₃, u₁, u₁', hthird, hwaits⟩ : ∃ w₃ u₁ u₁',
      F.Does 5 (.mk (.run 1 ()) (.error (.stepLimit 2)) u w₃
        [.mk (.run 1 ()) (.error .reentrant) u₁ u₁' []]) ∧ w₃.Waits () 0 :=
    ⟨_, _, _, .call .done .done, _, rfl, rfl⟩
  refine ⟨hF, hasks, _, _, _, w₃, .cons rfl hfirst (.cons hbetween hsecond (.cons hbetween' hthird
    (.nil rfl))), ?_, u, _, rfl, hwaits⟩
  exact List.forall_mem_cons.2 ⟨fun _ => rfl, List.forall_mem_cons.2 ⟨fun _ => rfl,
    List.forall_mem_singleton.2 fun _ => rfl⟩⟩

end Forest

end TickTree

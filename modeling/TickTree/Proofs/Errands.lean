import TickTree.Proofs.Courses

/-!
# Errands

An errand is an operation that was done, together with the errands done in its course: the
operations that its hooks and links issued, with everything done for these in turn. Every
operation that is answered is an errand (`Forest.serve_eq_done_iff`). So the operations that
were under way at some moment, and those still to come, can be named (`Errand.At`).

Where each operation meets a contract, provided the operations in its course do, every
errand in it does (`Forest.Does.within`). The contract may depend on what is under way
(`Forest.Does.amid`).
-/

namespace TickTree

variable {K A α : Type}

/-- An operation that was done. -/
inductive Errand (K A : Type) where
  /-- The call, its reply, the worlds before and after it, and what was done in its course. -/
  | mk (call : Call K) (reply : call.Reply) (before after : World K A)
      (inner : List (Errand K A))

namespace Errand

/-- The call that was issued. -/
def call : Errand K A → Call K
  | mk c .. => c

/-- The reply it got. -/
def reply : (e : Errand K A) → e.call.Reply
  | mk _ r .. => r

/-- The world in which the call was issued. -/
def before : Errand K A → World K A
  | mk _ _ w .. => w

/-- The world it left. -/
def after : Errand K A → World K A
  | mk _ _ _ w' _ => w'

/-- What was done in its course, first to last. -/
def inner : Errand K A → List (Errand K A)
  | mk _ _ _ _ es => es

/-- An errand takes place in the course of another: these are the errands around it, innermost
first, and these are done after it, before the outermost one is over. -/
inductive At (root : Errand K A) : List (Errand K A) → List (Errand K A) → Errand K A → Prop where
  | root : At root [] [] root
  | inner {around later earlier rest : List (Errand K A)} {e x : Errand K A} :
      At root around later e → e.inner = earlier ++ x :: rest →
      At root (e :: around) (rest ++ later) x

/-- An errand takes place in the course of another, or is that one. -/
def Within (root x : Errand K A) : Prop := ∃ around later, root.At around later x

/-- An errand within another is that one, or is done in the course of one that is done in its
course. -/
theorem At.cases {root x : Errand K A} {around later : List (Errand K A)}
    (h : root.At around later x) :
    (around = [] ∧ x = root) ∨ ∃ e ∈ root.inner, ∃ around' later',
      e.At around' later' x ∧ around = around' ++ [root] := by
  induction h with
  | root => exact .inl ⟨rfl, rfl⟩
  | @inner _ _ earlier rest e x _ hinner ih =>
    have hmem : x ∈ e.inner := by
      rw [hinner]
      exact List.mem_append_right earlier (.head rest)
    rcases ih with ⟨rfl, rfl⟩ | ⟨d, hd, around', _, hat, rfl⟩
    · exact .inr ⟨x, hmem, [], [], .root, rfl⟩
    · exact .inr ⟨d, hd, e :: around', _, .inner hat hinner, rfl⟩

theorem At.of_mem {root e x : Errand K A} {around later : List (Errand K A)}
    (hmem : e ∈ root.inner) (h : e.At around later x) :
    ∃ later', root.At (around ++ [root]) later' x := by
  obtain ⟨earlier, rest, hinner⟩ := List.append_of_mem hmem
  induction h with
  | root => exact ⟨_, .inner .root hinner⟩
  | inner _ hinner' ih =>
    obtain ⟨_, hat⟩ := ih
    exact ⟨_, .inner hat hinner'⟩

/-- What is around takes place as well. -/
theorem At.within_around {root x : Errand K A} {around later : List (Errand K A)}
    (h : root.At around later x) : ∀ e ∈ around, root.Within e := by
  induction h with
  | root => exact nofun
  | inner hat _ ih => exact List.forall_mem_cons.2 ⟨⟨_, _, hat⟩, ih⟩

/-- What is around has something done in its course. -/
theorem At.inner_ne_nil {root x : Errand K A} {around later : List (Errand K A)}
    (h : root.At around later x) : ∀ e ∈ around, e.inner ≠ [] := by
  induction h with
  | root => exact nofun
  | inner _ hinner ih => exact List.forall_mem_cons.2 ⟨by simp [hinner], ih⟩

theorem Within.self (e : Errand K A) : e.Within e := ⟨[], [], .root⟩

theorem Within.cases {root x : Errand K A} (h : root.Within x) :
    x = root ∨ ∃ e ∈ root.inner, e.Within x := by
  obtain ⟨around, later, hat⟩ := h
  rcases hat.cases with ⟨-, rfl⟩ | ⟨e, he, around', later', hat, -⟩
  · exact .inl rfl
  · exact .inr ⟨e, he, around', later', hat⟩

theorem Within.of_mem {root e x : Errand K A} (hmem : e ∈ root.inner) (h : e.Within x) :
    root.Within x := by
  obtain ⟨around, later, hat⟩ := h
  obtain ⟨later', hat⟩ := hat.of_mem hmem
  exact ⟨_, later', hat⟩

end Errand

/-! ## Following a course -/

/-- A course comes to an answer by these errands. -/
inductive Course.Goes (does : Errand K A → Prop) :
    Course K A α → List (Errand K A) → α → World K A → Prop where
  | done {a : α} {w : World K A} : Goes does (.done a w) [] a w
  | call {c : Call K} {w w' v : World K A} {next : c.Reply → World K A → Course K A α}
      {r : c.Reply} {inner es : List (Errand K A)} {a : α} :
      does (.mk c r w w' inner) → Goes does (next r w') es a v →
      Goes does (.call c w next) (.mk c r w w' inner :: es) a v

namespace Course

variable {does : Errand K A → Prop} {course : Course K A α} {es : List (Errand K A)} {a : α}
  {w v : World K A} {R : World K A → World K A → Prop} {C : Contract K A}
  {final : α → World K A → Prop}

theorem Goes.done_inv {b : α} (h : (Course.done b w).Goes does es a v) :
    es = [] ∧ b = a ∧ w = v := by
  cases h
  exact ⟨rfl, rfl, rfl⟩

theorem Goes.all (h : course.Goes does es a v) : ∀ e ∈ es, does e := by
  induction h with
  | done => exact nofun
  | call hdoes _ ih => exact List.forall_mem_cons.2 ⟨hdoes, ih⟩

/-- A course goes by errands of a handler that does them. -/
theorem under_eq_done_iff {handler : Handler K A}
    (h : ∀ {c w r w'}, handler c w = .done r w' ↔ ∃ inner, does (.mk c r w w' inner)) :
    course.under handler = .done a v ↔ ∃ es, course.Goes does es a v := by
  induction course with
  | done b w =>
    constructor
    · intro hdone
      cases hdone
      exact ⟨[], .done⟩
    · rintro ⟨es, hgoes⟩
      cases hgoes
      rfl
  | cutOff w =>
    constructor
    · exact nofun
    · rintro ⟨es, hgoes⟩
      cases hgoes
  | call c w next ih =>
    rw [under, Outcome.bind_eq_done_iff]
    constructor
    · rintro ⟨r, w', hdone, hnext⟩
      obtain ⟨inner, hdoes⟩ := h.1 hdone
      obtain ⟨es, hgoes⟩ := (ih r w').1 hnext
      exact ⟨_, .call hdoes hgoes⟩
    · rintro ⟨es, hgoes⟩
      cases hgoes with
      | call hdoes hrest => exact ⟨_, _, h.2 ⟨_, hdoes⟩, (ih _ _).2 ⟨_, hrest⟩⟩

/-- Along a course that meets a contract the calls are allowed, if they are answered by it. -/
theorem Goes.meets {P : Errand K A → Prop} (h : course.Goes does es a v)
    (hmeets : course.Meets C final)
    (hdo : ∀ e ∈ es, C.pre e.call e.before → C.granted e.call e.before e.reply e.after ∧
      C.post e.call e.before e.reply e.after ∧ P e) :
    final a v ∧ ∀ e ∈ es, P e := by
  induction h with
  | done => exact ⟨hmeets, nofun⟩
  | call _ _ ih =>
    obtain ⟨hhead, hrest⟩ := List.forall_mem_cons.1 hdo
    obtain ⟨hgranted, hpost, hdone⟩ := hhead hmeets.1
    obtain ⟨hfinal, hrests⟩ := ih (hmeets.2 _ _ hgranted hpost) hrest
    exact ⟨hfinal, List.forall_mem_cons.2 ⟨hdone, hrests⟩⟩

/-- A course that keeps a relation keeps what is related to some world, as long as the errands
on the way do. -/
theorem Goes.keeps {u : World K A} (trans : ∀ w v u, R w v → R v u → R w u)
    (h : course.Goes does es a v) (hkeeps : course.Keeps R w) (hw : R u w)
    (hes : ∀ e ∈ es, R u e.before → R u e.after) : R u v := by
  induction h generalizing w with
  | done => exact trans _ _ _ hw hkeeps
  | call _ _ ih =>
    obtain ⟨hhead, hrest⟩ := List.forall_mem_cons.1 hes
    exact ih (hkeeps.2 _ _) (hhead (trans _ _ _ hw hkeeps.1)) hrest

/-- The same from the end of one errand on. -/
theorem Goes.keeps_after {u : World K A} (trans : ∀ w v u, R w v → R v u → R w u)
    (h : course.Goes does es a v) (hkeeps : course.Keeps R w) {earlier rest : List (Errand K A)}
    {x : Errand K A} (hes : es = earlier ++ x :: rest) (hx : R u x.after)
    (hrest : ∀ e ∈ rest, R u e.before → R u e.after) : R u v := by
  induction h generalizing w earlier with
  | done => simp at hes
  | call _ hgoes ih =>
    cases earlier with
    | nil =>
      obtain ⟨rfl, rfl⟩ := List.cons.inj hes
      exact hgoes.keeps trans (hkeeps.2 _ _) hx hrest
    | cons e earlier => exact ih (hkeeps.2 _ _) (List.cons.inj hes).2

end Course

/-! ## What a forest does -/

variable [DecidableEq K]

namespace Forest

variable (F : Forest K A)

/-- A forest does an errand, within a bound. -/
def Does : Nat → Errand K A → Prop
  | 0, _ => False
  | bound + 1, .mk c r w w' inner => (F.course bound c w).Goes (Does bound) inner r w'

variable {F}

/-- What is answered is done. -/
theorem serve_eq_done_iff {n : Nat} {c : Call K} {w w' : World K A} {r : c.Reply} :
    F.serve n c w = .done r w' ↔ ∃ inner, F.Does n (.mk c r w w' inner) := by
  induction n generalizing c w w' with
  | zero => exact ⟨nofun, fun ⟨_, h⟩ => h.elim⟩
  | succ n ih =>
    rw [serve, answer_eq_under]
    exact Course.under_eq_done_iff ih

theorem Does.goes {n : Nat} {e : Errand K A} (h : F.Does n e) :
    ∃ m, n = m + 1 ∧ (F.course m e.call e.before).Goes (F.Does m) e.inner e.reply e.after := by
  obtain ⟨c, r, w, w', inner⟩ := e
  cases n with
  | zero => exact h.elim
  | succ m => exact ⟨m, rfl, h⟩

theorem Does.at {n : Nat} {root x : Errand K A} {around later : List (Errand K A)}
    (h : F.Does n root) (hat : root.At around later x) : ∃ m, F.Does m x := by
  induction hat with
  | root => exact ⟨n, h⟩
  | inner _ hinner ih =>
    obtain ⟨m, hm⟩ := ih
    obtain ⟨m, rfl, hgoes⟩ := hm.goes
    exact ⟨m, hgoes.all _ (hinner ▸ List.mem_append_right _ (.head _))⟩

theorem Does.of_within {n : Nat} {root x : Errand K A} (h : F.Does n root) (hx : root.Within x) :
    ∃ m, F.Does m x := by
  obtain ⟨around, later, hat⟩ := hx
  exact h.at hat

/-- What is done later is done as well. -/
theorem Does.later {n : Nat} {root x e : Errand K A} {around later : List (Errand K A)}
    (h : F.Does n root) (hat : root.At around later x) (he : e ∈ later) : ∃ m, F.Does m e := by
  induction hat with
  | root => cases he
  | @inner around later earlier rest d x hat hinner ih =>
    rcases List.mem_append.1 he with hrest | hlater
    · obtain ⟨m, hm⟩ := h.at hat
      obtain ⟨m, rfl, hgoes⟩ := hm.goes
      refine ⟨m, hgoes.all e ?_⟩
      rw [hinner]
      exact List.mem_append_right earlier (.tail x hrest)
    · exact ih hlater

/-- Each operation meets a contract that may depend on the calls around it, innermost first,
provided that the operations in its course do. -/
def FulfilsAmid (F : Forest K A) (C : List (Call K) → Contract K A) : Prop :=
  ∀ n c calls w, (C calls).pre c w → (F.course n c w).Meets (C (c :: calls))
    fun r w' => (C calls).granted c w r w' → (C calls).post c w r w'

/-- Each operation meets a contract, provided that the operations in its course do. -/
def Fulfils (F : Forest K A) (C : Contract K A) : Prop :=
  ∀ n c w, C.pre c w →
    (F.course n c w).Meets C fun r w' => C.granted c w r w' → C.post c w r w'

/-- Where each operation meets a contract, so does every errand in the course of one that may
be issued amid these calls. -/
theorem Does.amid {C : List (Call K) → Contract K A} (hC : F.FulfilsAmid C)
    (calls : List (Call K)) {n : Nat} {e x : Errand K A} {around later : List (Errand K A)}
    (h : F.Does n e) (hpre : (C calls).pre e.call e.before)
    (hgranted : ∀ {x around later}, e.At around later x →
      (C (around.map Errand.call ++ calls)).granted x.call x.before x.reply x.after)
    (hx : e.At around later x) :
    (C (around.map Errand.call ++ calls)).pre x.call x.before ∧
      (C (around.map Errand.call ++ calls)).post x.call x.before x.reply x.after := by
  induction n generalizing e x calls around later with
  | zero => exact h.elim
  | succ n ih =>
    obtain ⟨m, hm, hgoes⟩ := h.goes
    obtain rfl := Nat.succ.inj hm
    -- Seen from the outermost errand, the calls around one in its course end with its own.
    have hcalls : ∀ around' : List (Errand K A), (around' ++ [e]).map Errand.call ++ calls =
        around'.map Errand.call ++ e.call :: calls := by simp
    obtain ⟨hpost, hinner⟩ := hgoes.meets (hC n e.call calls e.before hpre)
      (P := fun d => ∀ {y around later}, d.At around later y →
        (C (around.map Errand.call ++ e.call :: calls)).pre y.call y.before ∧
          (C (around.map Errand.call ++ e.call :: calls)).post y.call y.before y.reply y.after)
      fun d hd hdpre => by
        have hdgranted : ∀ {y around later}, d.At around later y →
            (C (around.map Errand.call ++ e.call :: calls)).granted y.call y.before y.reply
              y.after := by
          intro y around' later' hy
          obtain ⟨later'', hat⟩ := hy.of_mem hd
          exact hcalls around' ▸ hgranted hat
        have hall := fun {y around' later'} (hy : d.At around' later' y) =>
          ih (e.call :: calls) (hgoes.all d hd) hdpre hdgranted hy
        exact ⟨hdgranted .root, (hall .root).2, hall⟩
    rcases hx.cases with ⟨rfl, rfl⟩ | ⟨d, hd, around', later', hdx, rfl⟩
    · exact ⟨hpre, hpost (hgranted .root)⟩
    · rw [hcalls]
      exact hinner d hd hdx

/-- The same for a contract that depends on nothing around. -/
theorem Does.within {C : Contract K A} (hC : F.Fulfils C) {n : Nat} {e x : Errand K A}
    (h : F.Does n e) (hpre : C.pre e.call e.before)
    (hgranted : ∀ x, e.Within x → C.granted x.call x.before x.reply x.after)
    (hx : e.Within x) : C.pre x.call x.before ∧ C.post x.call x.before x.reply x.after := by
  obtain ⟨around, later, hat⟩ := hx
  exact h.amid (C := fun _ => C) (fun n c _ w => hC n c w) [] hpre
    (fun hat => hgranted _ ⟨_, _, hat⟩) hat

end Forest

end TickTree

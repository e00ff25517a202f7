/-!
# Outcomes

What a bounded computation on a state comes to. It either answers or reaches its
bound, and in both cases there is a state: for a computation that was cut off,
the one it had reached. So a bound never looks like an answer, and what was done
up to the bound stays visible.
-/

namespace TickTree

/-- What a bounded computation comes to. -/
inductive Outcome (σ α : Type) where
  /-- An answer, and the state it leaves. -/
  | done (answer : α) (state : σ)
  /-- The bound was reached in this state. -/
  | cutOff (state : σ)
deriving DecidableEq

namespace Outcome

variable {σ α β : Type}

/-- Goes on with an answer. -/
@[inline]
def bind (o : Outcome σ α) (next : α → σ → Outcome σ β) : Outcome σ β :=
  match o with
  | done a s => next a s
  | cutOff s => cutOff s

/-- The outcome with its answer changed. -/
def map (f : α → β) (o : Outcome σ α) : Outcome σ β := o.bind fun a s => done (f a) s

/-- The answer, if there is one. -/
def answer? : Outcome σ α → Option α
  | done a _ => some a
  | cutOff _ => none

/-- The state left or reached. -/
def state : Outcome σ α → σ
  | done _ s => s
  | cutOff s => s

@[simp]
theorem bind_done (a : α) (s : σ) (next : α → σ → Outcome σ β) : (done a s).bind next = next a s :=
  rfl

@[simp]
theorem bind_cutOff (s : σ) (next : α → σ → Outcome σ β) :
    (cutOff s : Outcome σ α).bind next = cutOff s := rfl

theorem bind_eq_done_iff {o : Outcome σ α} {next : α → σ → Outcome σ β} {b : β} {s : σ} :
    o.bind next = done b s ↔ ∃ a s', o = done a s' ∧ next a s' = done b s := by
  cases o with
  | done a s' => exact ⟨fun h => ⟨a, s', rfl, h⟩, fun ⟨_, _, h, h'⟩ => by cases h; exact h'⟩
  | cutOff s' => simp

theorem map_eq_done_iff {o : Outcome σ α} {f : α → β} {b : β} {s : σ} :
    o.map f = done b s ↔ ∃ a, o = done a s ∧ f a = b := by
  rw [map, bind_eq_done_iff]
  refine ⟨fun ⟨a, s', h, hdone⟩ => ?_, fun ⟨a, h, hb⟩ => ⟨a, s, h, by rw [hb]⟩⟩
  cases hdone
  exact ⟨a, h, rfl⟩

end Outcome

end TickTree

import TickTree.Registry

/-!
# Queries

A query tests one entry of a board with a predicate. The board is the agent's
own or a shared one. A shared board that is not registered satisfies no
predicate, not even the one that asks for a missing entry; a poisoned registry
is an error and never a missing board.
-/

namespace TickTree

/-- Which board a query reads. -/
inductive BoardRef where
  /-- The agent's own board. -/
  | own
  /-- The shared board of a name. -/
  | shared (name : String)
deriving DecidableEq, Inhabited

namespace BoardRef

/-- The name that stands for the agent's own board. -/
def ownName : String := "self"

/-- The board a name stands for. -/
def ofName (name : String) : BoardRef := if name = ownName then own else shared name

/-- The name of a board. -/
def name : BoardRef → String
  | own => ownName
  | shared name => name

/-- The reference as a record. -/
def text : BoardRef → String
  | own => "Own"
  | shared name => Text.applied "Shared" [Text.quoted name]

end BoardRef

/-- A test of one entry. -/
inductive Predicate where
  /-- The entry is the truth value true. -/
  | isTrue
  /-- The entry is the truth value false. -/
  | isFalse
  /-- There is no entry. -/
  | isUnset
  /-- There is an entry. -/
  | isSet
  /-- The entry is this text. -/
  | equals (literal : String)
deriving DecidableEq, Inhabited

namespace Predicate

/-- The predicate a word stands for; a word without a meaning stands for itself. -/
def ofWord (word : String) : Predicate :=
  if word = "true" then isTrue
  else if word = "false" then isFalse
  else if word = "unset" ∨ word = "nil" then isUnset
  else if word = "set" ∨ word = "notnil" then isSet
  else equals word

/-- Whether an entry passes. -/
def test : Predicate → Option Value → Bool
  | isTrue, entry => entry = some (.bool true)
  | isFalse, entry => entry = some (.bool false)
  | isUnset, entry => entry.isNone
  | isSet, entry => entry.isSome
  | equals literal, entry => entry = some (.text literal)

/-- The predicate as it stands in a listing. -/
def shown : Predicate → String
  | isTrue => "true"
  | isFalse => "false"
  | isUnset => "unset"
  | isSet => "set"
  | equals literal => "== " ++ Text.quoted literal

/-- The predicate as a record. -/
def text : Predicate → String
  | isTrue => "IsTrue"
  | isFalse => "IsFalse"
  | isUnset => "IsUnset"
  | isSet => "IsSet"
  | equals literal => Text.applied "Equals" [Text.quoted literal]

end Predicate

/-- A test of one entry of one board. -/
structure Query where
  /-- The board that is read. -/
  board : BoardRef
  /-- The key of the entry. -/
  key : String
  /-- The test. -/
  predicate : Predicate
deriving DecidableEq, Inhabited

namespace Query

/-- The query of a board's name, a key and a predicate's word. -/
def ofWords (board key predicate : String) : Query :=
  ⟨.ofName board, key, .ofWord predicate⟩

/-- Whether the entry of a board passes. -/
def holdsOn (q : Query) (board : Blackboard) : Bool := q.predicate.test (board.get? q.key)

/-- The answer of a query, `none` if the shared board it reads is not registered. -/
def find (q : Query) (own : Blackboard) (registry : Option Registry) :
    Except RunError (Option Bool) :=
  match q.board, registry with
  | .own, _ => .ok (some (q.holdsOn own))
  | .shared _, none => .ok none
  | .shared name, some r =>
      match r.read name with
      | .error e => .error e
      | .ok found => .ok (found.map q.holdsOn)

/-- A query fails only where its registry is poisoned. -/
theorem find_error {q : Query} {board : Blackboard} {r : Option Registry} {e : RunError}
    (h : q.find board r = .error e) : e = .poisoned := by
  obtain ⟨ref, key, predicate⟩ := q
  cases ref with
  | own => cases h
  | shared name =>
    cases r with
    | none => cases h
    | some r =>
      simp only [find, Registry.read] at h
      by_cases hpoisoned : r.poisoned = true
      · simp only [hpoisoned, if_true] at h
        cases h
        rfl
      · simp [hpoisoned] at h

/-- The query as a record. -/
def text (q : Query) : String :=
  Text.record "BlackboardQuery"
    [("board", q.board.text), ("key", Text.quoted q.key), ("predicate", q.predicate.text)]

end Query

/-- A shared board that is missing satisfies nothing, not even the test for a missing entry. -/
example : (Query.ofWords "squad" "k" "unset").find ∅ (some {}) = .ok none := by decide

end TickTree

import TickTree.Text.Record

/-!
# Tree settings

The seed of a tree's random choices and the most instructions one of its ticks
may dispatch. A limit of zero is no limit.
-/

namespace TickTree

/-- Settings of a tree. -/
structure Config where
  /-- The seed of the random choices; without one they are arbitrary. -/
  seed : Option UInt64 := none
  /-- The most instructions one tick may dispatch. -/
  stepLimit : Option Nat := none
deriving DecidableEq, Repr, Inhabited

namespace Config

/-- The settings with a seed. -/
def withSeed (c : Config) (seed : UInt64) : Config := { c with seed := some seed }

/-- The settings with a limit; zero takes the limit away. -/
def withStepLimit (c : Config) (limit : Nat) : Config :=
  { c with stepLimit := if limit = 0 then none else some limit }

/-- The limit that counts: zero is none. -/
def effectiveLimit (c : Config) : Option Nat := c.stepLimit.filter (0 < ·)

/-- The settings as a record. -/
def text (c : Config) : String :=
  Text.record "TreeConfig"
    [("seed", Text.optional (c.seed.map fun seed => toString seed.toNat)),
      ("step_limit", Text.optional (c.stepLimit.map fun limit => toString limit))]

@[simp]
theorem effectiveLimit_withStepLimit (c : Config) (limit : Nat) :
    (c.withStepLimit limit).effectiveLimit = if limit = 0 then none else some limit := by
  by_cases h : limit = 0 <;> simp [withStepLimit, effectiveLimit, h, Nat.pos_iff_ne_zero]

end Config

end TickTree

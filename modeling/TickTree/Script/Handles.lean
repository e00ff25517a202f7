import TickTree.Script.Command

/-!
# Handles on registries

A script can hold several handles on registries. Copying a handle gives another
one on the same registry; a new registry gets a handle of its own. Handles are
named by their place in the order they were made.
-/

namespace TickTree.Script

/-- Something done through a handle. -/
inductive HandleCommand where
  /-- Do something to the registry. -/
  | registry (c : RegistryCommand)
  /-- Copy the handle. -/
  | copy
  /-- Make a registry. -/
  | fresh

/-- The registry of each handle, and the registries. -/
structure Handles where
  /-- The registry of each handle, first handle first. -/
  ids : List RegistryId := [0]
  /-- How many registries there are. -/
  made : Nat := 1
  /-- The registries. -/
  world : World Unit Unit := { ambient := () }

/-- Does something through a handle; a place without a handle is taken as the first. -/
def Handles.act (h : Handles) (place : Nat) : HandleCommand → Reply × Handles
  | .registry c =>
      match outside {} (c.hook (h.ids[place]?.getD 0)) h.world with
      | none => (.unended, h)
      | some (reply, w) => (reply, { h with world := w })
  | .copy => (.count h.ids.length, { h with ids := h.ids ++ [h.ids[place]?.getD 0] })
  | .fresh => (.count h.ids.length, { h with ids := h.ids ++ [h.made], made := h.made + 1 })

/-- Does things in a row. -/
def Handles.play (h : Handles) : List (Nat × HandleCommand) → List Reply
  | [] => []
  | (place, c) :: rest =>
      let (reply, h') := h.act place c
      reply :: h'.play rest

end TickTree.Script

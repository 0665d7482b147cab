import Mathlib.Data.List.Basic

/-!
# Stages of a pipeline

A stage is a goroutine that reads items from one channel and sends items on another
one. When it leaves its loop it closes a process that all stages of the pipeline
share, waits until that process is closed, and closes its own channel.
-/

namespace GoBlocks

/-- Where a stage that sends items of type `β` stands. -/
inductive Stage (β : Type*) where
  /-- Waiting for the next item. -/
  | reading
  /-- Sending an item. -/
  | sending (b : β)
  /-- Left the loop, about to close the process. -/
  | leaving
  /-- Waiting until the process is closed. -/
  | waiting
  /-- Its channel is closed. -/
  | done
  deriving DecidableEq

namespace Stage

variable {β : Type*}

/-- What a stage does that sends on an item or skips it. -/
def ofOption : Option β → Stage β
  | none => .reading
  | some b => .sending b

/-- The item that the stage is sending. -/
def held : Stage β → List β
  | .sending b => [b]
  | _ => []

/-- The stage has left its loop. -/
def Exited : Stage β → Bool
  | .reading | .sending _ => false
  | _ => true

/-- A stage that waits for an item holds none. -/
@[simp] theorem held_reading : (reading : Stage β).held = [] := rfl

/-- A stage that sends holds the item. -/
@[simp] theorem held_sending (b : β) : (sending b).held = [b] := rfl

/-- A stage that has left its loop holds no item. -/
@[simp] theorem held_leaving : (leaving : Stage β).held = [] := rfl

/-- A stage that waits for the process holds no item. -/
@[simp] theorem held_waiting : (waiting : Stage β).held = [] := rfl

/-- A stage that has closed its channel holds no item. -/
@[simp] theorem held_done : (done : Stage β).held = [] := rfl

/-- A stage that waits for an item is in its loop. -/
@[simp] theorem exited_reading : (reading : Stage β).Exited = false := rfl

/-- A stage that sends is in its loop. -/
@[simp] theorem exited_sending (b : β) : (sending b).Exited = false := rfl

/-- A stage that is about to close the process has left its loop. -/
@[simp] theorem exited_leaving : (leaving : Stage β).Exited = true := rfl

/-- A stage that waits for the process has left its loop. -/
@[simp] theorem exited_waiting : (waiting : Stage β).Exited = true := rfl

/-- A stage that has closed its channel has left its loop. -/
@[simp] theorem exited_done : (done : Stage β).Exited = true := rfl

/-- A stage that sends on an item or skips it holds what it sends. -/
@[simp] theorem held_ofOption (o : Option β) : (ofOption o).held = o.toList := by
  cases o <;> rfl

/-- A stage that sends on an item or skips it stays in its loop. -/
@[simp] theorem exited_ofOption (o : Option β) : (ofOption o).Exited = false := by
  cases o <;> rfl

/-- A stage holds an item only in its loop. -/
theorem held_of_exited {g : Stage β} (h : g.Exited = true) : g.held = [] := by
  cases g with
  | sending b => cases h
  | _ => rfl

end Stage

end GoBlocks

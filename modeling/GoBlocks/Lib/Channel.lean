import Mathlib.Data.Int.Notation
import Mathlib.Data.Nat.Notation

/-!
# Channels

A channel with a buffer of a fixed capacity. A send appends to the buffer if there
is room, and a receive takes the oldest value. A channel of capacity zero has no
buffer: a sender and a receiver meet, which is one step of both.
-/

namespace GoBlocks

/-- A channel with the values in its buffer. -/
structure Chan (α : Type*) where
  /-- The capacity of the buffer. -/
  cap : ℕ
  /-- The buffered values, oldest first. -/
  buf : List α
  /-- The channel was closed. -/
  closed : Bool
  /-- The buffer does not exceed its capacity. -/
  bounded : buf.length ≤ cap

namespace Chan

variable {α : Type*}

/-- `make(chan α, n)`, which panics for a negative size. -/
def make (α : Type*) (n : ℤ) : Option (Chan α) :=
  if n < 0 then none else some ⟨n.toNat, [], false, Nat.zero_le _⟩

/-- A channel whose buffer is full of copies of a value. -/
def full (n : ℕ) (v : α) : Chan α := ⟨n, List.replicate n v, false, by simp⟩

/-- Send into the buffer. -/
def send (c : Chan α) (v : α) : Option (Chan α) :=
  if h : c.buf.length < c.cap ∧ c.closed = false then
    some { c with buf := c.buf ++ [v], bounded := by simpa using Nat.succ_le_of_lt h.1 }
  else none

/-- Receive from the buffer. -/
def recv (c : Chan α) : Option (α × Chan α) :=
  c.buf.head?.map fun v =>
    (v, { c with buf := c.buf.tail, bounded := Nat.le_trans (by simp) c.bounded })

/-- Sender and receiver can meet: the channel is open and has no buffer. -/
def CanMeet (c : Chan α) : Bool := c.cap = 0 ∧ c.closed = false

/-- Close the channel. -/
def close (c : Chan α) : Chan α := { c with closed := true }

/-- A receive on a closed channel that has been drained. -/
def Drained (c : Chan α) : Bool := c.closed && c.buf.isEmpty

/-- A new channel has the given capacity, is open and has nothing in its buffer. -/
theorem make_spec {n : ℤ} {c : Chan α} (h : make α n = some c) :
    c.cap = n.toNat ∧ c.buf = [] ∧ c.closed = false := by
  unfold make at h
  split at h
  · cases h
  · cases h
    exact ⟨rfl, rfl, rfl⟩

/-- A send keeps the capacity. -/
theorem cap_of_send {c c' : Chan α} {v : α} (h : c.send v = some c') : c'.cap = c.cap := by
  unfold send at h
  split at h
  · cases h
    rfl
  · cases h

/-- A receive keeps the capacity. -/
theorem cap_of_recv {c c' : Chan α} {v : α} (h : c.recv = some (v, c')) : c'.cap = c.cap := by
  obtain ⟨_, -, hc'⟩ := Option.map_eq_some_iff.mp h
  cases hc'
  rfl

/-- A send appends its value to the buffer. -/
theorem buf_of_send {c c' : Chan α} {v : α} (h : c.send v = some c') : c'.buf = c.buf ++ [v] := by
  unfold send at h
  split at h
  · cases h
    rfl
  · cases h

/-- A send puts its value into the buffer. -/
theorem mem_buf_of_send {c c' : Chan α} {v w : α} (h : c.send v = some c')
    (hw : w ∈ c'.buf) : w ∈ c.buf ∨ w = v := by
  rw [buf_of_send h] at hw
  simpa using hw

/-- A receive takes its value from the buffer. -/
theorem buf_of_recv {c c' : Chan α} {v : α} (h : c.recv = some (v, c')) :
    c.buf = v :: c'.buf := by
  unfold recv at h
  cases hbuf : c.buf with
  | nil => simp [hbuf] at h
  | cons x xs =>
    simp only [hbuf, List.head?_cons, Option.map_some, Option.some.injEq, Prod.mk.injEq] at h
    obtain ⟨rfl, rfl⟩ := h
    simp

/-- A send closes nothing. -/
theorem closed_of_send {c c' : Chan α} {v : α} (h : c.send v = some c') :
    c'.closed = c.closed := by
  unfold send at h
  split at h
  · cases h
    rfl
  · cases h

/-- A receive closes nothing. -/
theorem closed_of_recv {c c' : Chan α} {v : α} (h : c.recv = some (v, c')) :
    c'.closed = c.closed := by
  obtain ⟨_, -, hc'⟩ := Option.map_eq_some_iff.mp h
  cases hc'
  rfl

/-- A send into an open channel with room succeeds. -/
theorem exists_send {c : Chan α} (hroom : c.buf.length < c.cap) (hopen : c.closed = false) (v : α) :
    ∃ c', c.send v = some c' :=
  ⟨_, dif_pos ⟨hroom, hopen⟩⟩

/-- A receive from a buffer that is not empty succeeds. -/
theorem exists_recv {c : Chan α} (h : c.buf ≠ []) : ∃ v c', c.recv = some (v, c') := by
  obtain ⟨v, vs, hbuf⟩ := List.exists_cons_of_ne_nil h
  have hhead : c.buf.head? = some v := by rw [hbuf, List.head?_cons]
  exact ⟨v, _, Option.map_eq_some_iff.mpr ⟨v, hhead, rfl⟩⟩

end Chan

end GoBlocks

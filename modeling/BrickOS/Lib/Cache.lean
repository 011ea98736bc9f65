import Mathlib.Logic.Function.Basic
import Mathlib.Tactic.SplitIfs

/-! A store with a buffer for one block. The buffer is tagged with the number of the block it was
last filled from; `addr` takes a number to the place in the store that it names. -/
namespace BrickOS.Lib

structure Cached (κ α β : Type*) where
  store : α → β
  buffer : β
  tag : κ

namespace Cached
variable {κ α β : Type*} {addr : κ → α} {c : Cached κ α β}

/-- The buffer holds what the store holds under its tag. -/
def Coherent (addr : κ → α) (c : Cached κ α β) : Prop := c.buffer = c.store (addr c.tag)

/-- Fill the buffer from the store. -/
def load (addr : κ → α) (c : Cached κ α β) (k : κ) : Cached κ α β :=
  { c with buffer := c.store (addr k), tag := k }

/-- Fill the buffer unless its tag says that this was done last. -/
def fetch [DecidableEq κ] (addr : κ → α) (c : Cached κ α β) (k : κ) : Cached κ α β :=
  if c.tag ≠ k then c.load addr k else c

/-- Write a block to the store, past the buffer. -/
def put [DecidableEq α] (addr : κ → α) (c : Cached κ α β) (k : κ) (b : β) : Cached κ α β :=
  { c with store := Function.update c.store (addr k) b }

/-- Change the buffer and write it to the store under `k`. -/
def modify [DecidableEq α] (addr : κ → α) (c : Cached κ α β) (k : κ) (f : β → β) : Cached κ α β :=
  { c with buffer := f c.buffer, store := Function.update c.store (addr k) (f c.buffer) }

@[simp] theorem load_store (k : κ) : (c.load addr k).store = c.store := rfl

@[simp] theorem load_tag (k : κ) : (c.load addr k).tag = k := rfl

theorem load_coherent (c : Cached κ α β) (k : κ) : (c.load addr k).Coherent addr := rfl

section fetch
variable [DecidableEq κ]

@[simp] theorem fetch_store (k : κ) : (c.fetch addr k).store = c.store := by
  unfold fetch
  split_ifs <;> rfl

@[simp] theorem fetch_tag (k : κ) : (c.fetch addr k).tag = k := by
  unfold fetch
  split_ifs with h
  · rfl
  · exact not_not.mp h

theorem Coherent.fetch (h : c.Coherent addr) (k : κ) : (c.fetch addr k).Coherent addr := by
  unfold Cached.fetch
  split_ifs
  · exact load_coherent c k
  · exact h

theorem Coherent.fetch_buffer (h : c.Coherent addr) (k : κ) :
    (c.fetch addr k).buffer = c.store (addr k) := by
  have hc := h.fetch k
  rwa [Coherent, fetch_tag, fetch_store] at hc

end fetch

section write
variable [DecidableEq α]

theorem modify_coherent {k : κ} (h : c.tag = k) (f : β → β) :
    (c.modify addr k f).Coherent addr := by
  simp [Coherent, modify, h]

theorem modify_store (k : κ) (f : β → β) :
    (c.modify addr k f).store = Function.update c.store (addr k) (f c.buffer) := rfl

theorem Coherent.put_iff (h : c.Coherent addr) (k : κ) (b : β) :
    (c.put addr k b).Coherent addr ↔ (addr k = addr c.tag → b = c.buffer) := by
  simp only [Coherent, put]
  by_cases hk : addr k = addr c.tag
  · simp only [hk, Function.update_self, forall_const]
    exact eq_comm
  · rw [Function.update_of_ne (Ne.symm hk)]
    exact iff_of_true h (fun he => absurd he hk)

end write

end Cached

end BrickOS.Lib

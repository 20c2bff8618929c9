import Mathlib.Data.List.Basic

namespace KernelDrivers.Framework

/-- The account of a bounded FIFO: all that went in, all that came out, and what it
holds. The fields say that nothing was lost, doubled or reordered. -/
structure BoundedFifo (α : Type*) (cap : Nat) where
  accepted : List α
  delivered : List α
  queue : List α
  balance : delivered ++ queue = accepted
  bound : queue.length ≤ cap

namespace BoundedFifo

variable {α : Type*} {cap : Nat}

def empty : BoundedFifo α cap := ⟨[], [], [], rfl, Nat.zero_le _⟩

/-- What a FIFO holding `q` takes of `xs`: as much as its free room admits. -/
def admitted (cap : Nat) (q xs : List α) : List α := xs.take (cap - q.length)

theorem admitted_length (q xs : List α) :
    (admitted cap q xs).length = min xs.length (cap - q.length) := by
  simp [admitted, Nat.min_comm]

/-- What is taken of two pieces offered one after the other is what is taken of them joined. -/
theorem admitted_append (q xs ys : List α) :
    admitted cap q (xs ++ ys) =
      admitted cap q xs ++ admitted cap (q ++ admitted cap q xs) ys := by
  rw [admitted, List.take_append, ← admitted]
  congr 1
  rw [admitted, List.take_eq_take_iff, List.length_append, admitted_length]
  omega

def push (f : BoundedFifo α cap) (xs : List α) : BoundedFifo α cap where
  accepted := f.accepted ++ admitted cap f.queue xs
  delivered := f.delivered
  queue := f.queue ++ admitted cap f.queue xs
  balance := by rw [← f.balance, List.append_assoc]
  bound := by
    have := f.bound
    rw [List.length_append, admitted_length]
    omega

def pop (f : BoundedFifo α cap) (k : Nat) : BoundedFifo α cap where
  accepted := f.accepted
  delivered := f.delivered ++ f.queue.take k
  queue := f.queue.drop k
  balance := by rw [List.append_assoc, List.take_append_drop, f.balance]
  bound := by
    have := f.bound
    rw [List.length_drop]
    omega

end BoundedFifo

end KernelDrivers.Framework

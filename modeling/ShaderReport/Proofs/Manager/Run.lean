import Mathlib.Data.List.Induction
import ShaderReport.Manager.Basic

/-!
# Runs of a manager

A run is a list of operations on a manager: those of its clients, and the ticks of its host.  Between
them the world may change on its own (`Operation.disturb`), so a job may become complete, or stop
being so, without any tick.  `Manager.after` is the manager at the end of a run.

What is read off a run: `Manager.trace` is all of it, every operation with its answer and the manager
after it.  `unmatched` counts, by the operations alone, the subscriptions of others that were not
undone.  `Manager.signals` is what the source was told, oldest first.
-/

namespace ShaderReport

/-- What is asked of a manager, or happens to its world. -/
inductive Operation (F W : Type) where
  | register (target : BuildTarget) (factory : F)
  | submit (asset : Asset) (target : BuildTarget)
  | submitPath (path : Path) (target : BuildTarget)
  | tick
  | subscribe
  | unsubscribe
  | disturb (change : W → W)

/-- What is answered to an operation. -/
inductive Answer where
  | nothing
  | submitted (result : Except InvalidAsset (Option JobId))
  | unsubscribed (result : Except UnbalancedUnsubscribe Unit)

/-- An operation of a run, with its answer and the manager after it. -/
structure Performed (F W : Type) where
  operation : Operation F W
  answer : Answer
  manager : Manager F W

variable {F W : Type}

namespace Manager

/-- Does what an operation asks for. -/
def perform (ws : Workshop F W) (m : Manager F W) : Operation F W → Answer × Manager F W
  | .register target factory => (.nothing, m.register target factory)
  | .submit asset target =>
    let (job, m) := m.submit ws asset target
    (.submitted (.ok job), m)
  | .submitPath path target =>
    let (result, m) := m.submitPath ws path target
    (.submitted result, m)
  | .tick => (.nothing, m.onTick ws)
  | .subscribe => (.nothing, m.subscribe)
  | .unsubscribe =>
    let (result, m) := m.unsubscribe
    (.unsubscribed result, m)
  | .disturb change => (.nothing, { m with world := change m.world })

/-- The manager after operations, in order. -/
def after (ws : Workshop F W) (m : Manager F W) (ops : List (Operation F W)) : Manager F W :=
  ops.foldl (fun m op => (m.perform ws op).2) m

@[simp] theorem after_nil (ws : Workshop F W) (m : Manager F W) : m.after ws [] = m := rfl

theorem after_append (ws : Workshop F W) (m : Manager F W) (ops : List (Operation F W))
    (op : Operation F W) : m.after ws (ops ++ [op]) = ((m.after ws ops).perform ws op).2 := by
  simp [after]

/-- An operation along with what comes of it. -/
def performed (ws : Workshop F W) (m : Manager F W) (op : Operation F W) : Performed F W :=
  ⟨op, (m.perform ws op).1, (m.perform ws op).2⟩

/-- A run, operation by operation. -/
def trace (ws : Workshop F W) : Manager F W → List (Operation F W) → List (Performed F W)
  | _, [] => []
  | m, op :: ops => m.performed ws op :: trace ws (m.perform ws op).2 ops

theorem trace_append (ws : Workshop F W) (m : Manager F W) (ops : List (Operation F W))
    (op : Operation F W) :
    m.trace ws (ops ++ [op]) = m.trace ws ops ++ [(m.after ws ops).performed ws op] := by
  induction ops generalizing m with
  | nil => rfl
  | cons first ops ih =>
    rw [List.cons_append, trace, trace, ih, List.cons_append]
    rfl

/-- What the source was told, oldest first. -/
def signals (m : Manager F W) : List Signal :=
  m.history.reverse.filterMap fun
    | .signal s => some s
    | _ => none

end Manager

/-- The subscriptions left after an operation out of those before it.  An operation that undoes a
subscription where none is left undoes nothing. -/
def Operation.balance (n : Nat) : Operation F W → Nat
  | .subscribe => n + 1
  | .unsubscribe => n - 1
  | _ => n

/-- The subscriptions of others that operations leave without undoing them. -/
def unmatched (ops : List (Operation F W)) : Nat :=
  ops.foldl Operation.balance 0

theorem unmatched_append (ops : List (Operation F W)) (op : Operation F W) :
    unmatched (ops ++ [op]) = op.balance (unmatched ops) := by
  simp [unmatched]

theorem unmatched_le_length (ops : List (Operation F W)) : unmatched ops ≤ ops.length := by
  induction ops using List.reverseRecOn with
  | nil => exact Nat.le_refl 0
  | append_singleton ops op ih =>
    have hstep : op.balance (unmatched ops) ≤ unmatched ops + 1 := by
      cases op <;> simp only [Operation.balance] <;> omega
    rw [unmatched_append, List.length_append, List.length_singleton]
    omega

theorem unmatched_take_lt {ops before : List (Operation F W)} {bound : Nat}
    (h : ∀ n, unmatched (ops.take n) < bound) (hb : before <+: ops) (n : Nat) :
    unmatched (before.take n) < bound := by
  obtain ⟨rest, rfl⟩ := hb
  have := h (min n before.length)
  rwa [List.take_append_of_le_length (Nat.min_le_right _ _), ← List.take_take,
    List.take_length] at this

end ShaderReport

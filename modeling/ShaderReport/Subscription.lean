import ShaderReport.Count

/-!
# Subscriptions

A subscription counts who wants the ticks of a source. The source is told twice only: to start when
the count leaves zero, and to stop when it is back at zero.
-/

namespace ShaderReport

/-- What a tick source is told. -/
inductive Signal where
  | register
  | unregister
  deriving DecidableEq, Repr

/-- A source of ticks: whether it delivers them, and how often it was told to start and to stop. -/
structure TickSource where
  registered : Bool
  registers : Nat
  unregisters : Nat
  deriving DecidableEq, Repr

namespace TickSource

/-- A source that was told nothing yet. -/
def idle : TickSource :=
  ⟨false, 0, 0⟩

/-- Tells a source something, or nothing. -/
def receive (s : TickSource) : Option Signal → TickSource
  | none => s
  | some .register => { s with registered := true, registers := s.registers + 1 }
  | some .unregister => { s with registered := false, unregisters := s.unregisters + 1 }

end TickSource

/-- The number of subscriptions that were not undone. -/
structure Subscription where
  count : Count
  deriving DecidableEq, Repr

/-- An attempt to undo a subscription where none is left. -/
inductive UnbalancedUnsubscribe where
  | unmatched
  deriving DecidableEq, Repr

/-- What is said of such an attempt. -/
def UnbalancedUnsubscribe.message : UnbalancedUnsubscribe → String
  | .unmatched => "unsubscribed from tick source without a matching subscription"

namespace Subscription

/-- No subscriptions. -/
def none : Subscription :=
  ⟨0⟩

/-- Whether the source is to deliver ticks. -/
def isActive (s : Subscription) : Bool :=
  0 < s.count.val

/-- Subscribes once more, and what the source is told of it. -/
def subscribe (s : Subscription) : Subscription × Option Signal :=
  (⟨s.count.succ⟩, if s.count.val = 0 then some .register else .none)

/-- Undoes one subscription, and what the source is told of it. -/
def unsubscribe (s : Subscription) :
    Except UnbalancedUnsubscribe (Subscription × Option Signal) :=
  match s.count.pred? with
  | .none => .error .unmatched
  | some count => .ok (⟨count⟩, if count.val = 0 then some .unregister else .none)

/-- Undoing a subscription fails only if there is none. -/
theorem unsubscribe_cases (s : Subscription) :
    (s.count.val = 0 ∧ s.unsubscribe = .error .unmatched) ∨
      ∃ c : Count, c.val + 1 = s.count.val ∧
        s.unsubscribe = .ok (⟨c⟩, if c.val = 0 then some .unregister else .none) := by
  cases hp : s.count.pred? with
  | none => exact Or.inl ⟨Count.pred?_eq_none.mp hp, by simp only [unsubscribe, hp]⟩
  | some c => exact Or.inr ⟨c, (Count.val_of_pred? hp).symm, by simp only [unsubscribe, hp]⟩

end Subscription

end ShaderReport

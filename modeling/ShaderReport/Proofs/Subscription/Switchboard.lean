import Mathlib.Logic.Function.Basic
import ShaderReport.Proofs.Manager.Balance

/-!
# One subscription among many sources

Every call to a subscription is given a source, and no two calls need be given the same one.  A
`Switchboard` keeps a subscription along with what became of all the sources.  The count moves as the calls
say (`Switchboard.count_call`), and a source is told something just when the call that it is given to moves
the count between zero and one (`Switchboard.told_call`).  From these two the rest follows by induction on
the calls: what is told to all sources together takes turns (`Switchboard.inTurn_after`), and the count is
exact as long as it has room (`Switchboard.count_after`).
-/

namespace ShaderReport

/-- A subscription along with the sources that its calls are given: what became of each of them, all that
any of them was told, oldest first, and how many calls subscribed and how many undid a subscription. -/
structure Switchboard (S : Type) where
  subscription : Subscription
  sources : S → TickSource
  told : List (S × Signal)
  subscribed : Nat
  undone : Nat

namespace Switchboard

/-- A call to a subscription, with the source that it is given. -/
inductive Call (S : Type) where
  | subscribe (source : S)
  | unsubscribe (source : S)

def Call.source {S : Type} : Call S → S
  | .subscribe source => source
  | .unsubscribe source => source

/-- A call as a client of a manager would make it, to the only source there is. -/
def Call.operation {S : Type} : Call S → Operation Unit Unit
  | .subscribe _ => .subscribe
  | .unsubscribe _ => .unsubscribe

/-- What a call tells its source that moves the count from one number to another. -/
def crossing {S : Type} (source : S) (before after : Nat) : List (S × Signal) :=
  if before = 0 ∧ after = 1 then [(source, .register)]
  else if before = 1 ∧ after = 0 then [(source, .unregister)]
  else []

variable {S : Type} [DecidableEq S]

/-- A new subscription, among sources that were told nothing yet. -/
def new : Switchboard S :=
  ⟨.none, fun _ => .idle, [], 0, 0⟩

def count (b : Switchboard S) : Nat :=
  b.subscription.count.val

/-- Tells a source something, or nothing. -/
def tell (b : Switchboard S) (source : S) : Option Signal → Switchboard S
  | none => b
  | some signal =>
    { b with
      sources := Function.update b.sources source ((b.sources source).receive (some signal))
      told := b.told ++ [(source, signal)] }

/-- Makes a call: what it answers, and what it leaves. -/
def call (b : Switchboard S) : Call S → Except UnbalancedUnsubscribe Unit × Switchboard S
  | .subscribe source =>
    let (subscription, signal) := b.subscription.subscribe
    (.ok (), { b with subscription, subscribed := b.subscribed + 1 }.tell source signal)
  | .unsubscribe source =>
    match b.subscription.unsubscribe with
    | .error e => (.error e, b)
    | .ok (subscription, signal) =>
      (.ok (), { b with subscription, undone := b.undone + 1 }.tell source signal)

/-- What is left after calls, in order. -/
def after (b : Switchboard S) (calls : List (Call S)) : Switchboard S :=
  calls.foldl (fun b call => (b.call call).2) b

theorem after_append (b : Switchboard S) (calls : List (Call S)) (call : Call S) :
    b.after (calls ++ [call]) = ((b.after calls).call call).2 := by
  rw [after, List.foldl_append]
  rfl

/-! ### One call -/

section Tell

variable (b : Switchboard S) (source : S) (signal : Option Signal)

@[simp] theorem tell_count : (b.tell source signal).count = b.count := by
  cases signal <;> rfl

@[simp] theorem tell_subscribed : (b.tell source signal).subscribed = b.subscribed := by
  cases signal <;> rfl

@[simp] theorem tell_undone : (b.tell source signal).undone = b.undone := by
  cases signal <;> rfl

end Tell

theorem call_subscribe (b : Switchboard S) (source : S) :
    ∃ c : Count, c.val = min (b.count + 1) (Limit.unsigned - 1) ∧ b.call (.subscribe source) =
      (.ok (), { b with subscription := ⟨c⟩, subscribed := b.subscribed + 1 }.tell source
        (if b.count = 0 then some .register else none)) :=
  ⟨b.subscription.count.succ, Count.val_succ _, rfl⟩

theorem call_unsubscribe (b : Switchboard S) (source : S) :
    (b.count = 0 ∧ b.call (.unsubscribe source) = (.error .unmatched, b)) ∨
      ∃ c : Count, c.val + 1 = b.count ∧ b.call (.unsubscribe source) =
        (.ok (), { b with subscription := ⟨c⟩, undone := b.undone + 1 }.tell source
          (if c.val = 0 then some .unregister else none)) := by
  rcases b.subscription.unsubscribe_cases with ⟨hc, hu⟩ | ⟨c, hc, hu⟩
  · exact Or.inl ⟨hc, by rw [call, hu]⟩
  · exact Or.inr ⟨c, hc, by rw [call, hu]⟩

/-- **The count moves as the calls say**, until it has no room left. -/
theorem count_call (b : Switchboard S) (call : Call S) :
    (b.call call).2.count = min (call.operation.balance b.count) (Limit.unsigned - 1) := by
  cases call with
  | subscribe source =>
    obtain ⟨c, hc, hcall⟩ := b.call_subscribe source
    rw [hcall, tell_count]
    exact hc
  | unsubscribe source =>
    show _ = min (b.count - 1) 18446744073709551615
    rcases b.call_unsubscribe source with ⟨hzero, hcall⟩ | ⟨c, hc, hcall⟩
    · rw [hcall, hzero]
      rfl
    · have hle := c.val_le
      rw [hcall, tell_count]
      show c.val = _
      omega

/-- A call moves the count from zero to one, or from one to zero, and its source is told so; or it leaves the
count on the side of zero where it was, and nothing is told. -/
theorem call_cases (b : Switchboard S) (call : Call S) :
    (b.count = 0 ∧ (b.call call).2.count = 1 ∧
      (b.call call).2.told = b.told ++ [(call.source, .register)]) ∨
    (b.count = 1 ∧ (b.call call).2.count = 0 ∧
      (b.call call).2.told = b.told ++ [(call.source, .unregister)]) ∨
    ((b.count = 0 ↔ (b.call call).2.count = 0) ∧ (b.call call).2.told = b.told) := by
  cases call with
  | subscribe source =>
    obtain ⟨c, hc, hcall⟩ := b.call_subscribe source
    have hmin : c.val = min (b.count + 1) 18446744073709551615 := hc
    rw [hcall, tell_count]
    show _ ∧ c.val = 1 ∧ _ ∨ _ ∧ c.val = 0 ∧ _ ∨ (_ ↔ c.val = 0) ∧ _
    by_cases hzero : b.count = 0
    · rw [if_pos hzero]
      exact Or.inl ⟨hzero, by omega, rfl⟩
    · rw [if_neg hzero]
      exact Or.inr (Or.inr ⟨by omega, rfl⟩)
  | unsubscribe source =>
    rcases b.call_unsubscribe source with ⟨hzero, hcall⟩ | ⟨c, hc, hcall⟩
    · rw [hcall]
      exact Or.inr (Or.inr ⟨Iff.rfl, rfl⟩)
    · rw [hcall, tell_count]
      show _ ∧ c.val = 1 ∧ _ ∨ _ ∧ c.val = 0 ∧ _ ∨ (_ ↔ c.val = 0) ∧ _
      by_cases hzero : c.val = 0
      · rw [if_pos hzero]
        exact Or.inr (Or.inl ⟨by omega, hzero, rfl⟩)
      · rw [if_neg hzero]
        exact Or.inr (Or.inr ⟨by omega, rfl⟩)

/-- **A call tells its source that the count leaves zero, or is back at zero**, and nothing else. -/
theorem told_call (b : Switchboard S) (call : Call S) :
    (b.call call).2.told = b.told ++ crossing call.source b.count (b.call call).2.count := by
  rcases b.call_cases call with ⟨hb, ha, htold⟩ | ⟨hb, ha, htold⟩ | ⟨hside, htold⟩
  · rw [htold, crossing, if_pos ⟨hb, ha⟩]
  · rw [htold, crossing, if_neg (by omega), if_pos ⟨hb, ha⟩]
  · rw [htold, crossing, if_neg (by omega), if_neg (by omega), List.append_nil]

/-! ### Runs of calls -/

def toldTo (b : Switchboard S) (source : S) : List Signal :=
  (b.told.filter (·.1 = source)).map Prod.snd

/-- What was told takes turns, and tells whether anything is counted; and every source has received what it
was told. -/
structure InTurn (b : Switchboard S) : Prop where
  alternate : Alternate (b.told.map Prod.snd)
  parity : (b.told.map Prod.snd).length % 2 = if b.count = 0 then 0 else 1
  received : ∀ source, b.sources source = (b.toldTo source).foldl (fun s x => s.receive (some x)) .idle

theorem inTurn_new : (new : Switchboard S).InTurn where
  alternate := by
    intro i s h
    cases h
  parity := rfl
  received := by
    intro source
    rfl

theorem received_tell {b : Switchboard S}
    (h : ∀ source, b.sources source = (b.toldTo source).foldl (fun s x => s.receive (some x)) .idle)
    (given : S) (signal : Option Signal) (source : S) :
    (b.tell given signal).sources source =
      ((b.tell given signal).toldTo source).foldl (fun s x => s.receive (some x)) .idle := by
  cases signal with
  | none => exact h source
  | some signal =>
    show Function.update b.sources given _ source = _
    rw [toldTo, tell, List.filter_append, List.map_append, List.foldl_append]
    by_cases hsource : source = given
    · subst hsource
      rw [Function.update_self, h]
      simp [toldTo]
    · rw [Function.update_of_ne hsource, h]
      simp [toldTo, Ne.symm hsource]

theorem InTurn.call {b : Switchboard S} (h : b.InTurn) (call : Call S) : (b.call call).2.InTurn := by
  have hturn : Alternate ((b.call call).2.told.map Prod.snd) ∧
      ((b.call call).2.told.map Prod.snd).length % 2 = if (b.call call).2.count = 0 then 0 else 1 := by
    rcases b.call_cases call with ⟨hb, ha, htold⟩ | ⟨hb, ha, htold⟩ | ⟨hside, htold⟩
    · rw [htold, List.map_append]
      exact h.alternate.turn h.parity (iff_of_true rfl hb) (by omega)
    · have hsignal : Signal.unregister ≠ .register := by decide
      rw [htold, List.map_append]
      exact h.alternate.turn h.parity (iff_of_false hsignal (by omega)) (by omega)
    · rw [htold, h.parity]
      simp only [hside]
      exact ⟨h.alternate, trivial⟩
  refine ⟨hturn.1, hturn.2, ?_⟩
  cases call with
  | subscribe source =>
    obtain ⟨c, -, hcall⟩ := b.call_subscribe source
    rw [hcall]
    exact received_tell (b := { b with subscription := ⟨c⟩, subscribed := _ }) h.received source _
  | unsubscribe source =>
    rcases b.call_unsubscribe source with ⟨-, hcall⟩ | ⟨c, -, hcall⟩
    · rw [hcall]
      exact h.received
    · rw [hcall]
      exact received_tell (b := { b with subscription := ⟨c⟩, undone := _ }) h.received source _

/-- **What is told takes turns in every run of calls**, whatever the count ran over. -/
theorem inTurn_after (calls : List (Call S)) : (new.after calls).InTurn := by
  induction calls using List.reverseRecOn with
  | nil => exact inTurn_new
  | append_singleton calls call ih =>
    rw [after_append]
    exact ih.call call

theorem InTurn.isActive_iff {b : Switchboard S} (h : b.InTurn) :
    b.subscription.isActive = true ↔ ∃ source, b.told.getLast? = some (source, .register) := by
  have hactive : b.subscription.isActive = true ↔ b.count ≠ 0 := by
    rw [Subscription.isActive, decide_eq_true_iff]
    exact Nat.pos_iff_ne_zero
  have hparity := h.parity
  rw [hactive]
  rcases List.eq_nil_or_concat b.told with hnil | ⟨init, ⟨source, signal⟩, hconcat⟩
  · rw [hnil] at hparity ⊢
    split at hparity <;> simp_all
  · have hlast := h.alternate init.length signal (by simp [hconcat])
    have hlength : (b.told.map Prod.snd).length = init.length + 1 := by simp [hconcat]
    rw [hlength] at hparity
    have hregister : signal = .register ↔ b.count ≠ 0 := by
      rw [hlast]
      split at hparity <;> omega
    rw [← hregister, hconcat]
    simp

theorem count_add_call {b : Switchboard S} (h : b.count + b.undone = b.subscribed) (call : Call S)
    (hroom : call.operation.balance b.count < Limit.unsigned) :
    (b.call call).2.count + (b.call call).2.undone = (b.call call).2.subscribed := by
  cases call with
  | subscribe source =>
    obtain ⟨c, hc, hcall⟩ := b.call_subscribe source
    have hmin : c.val = min (b.count + 1) 18446744073709551615 := hc
    have hroom : b.count + 1 < 18446744073709551616 := hroom
    rw [hcall, tell_count, tell_undone, tell_subscribed]
    show c.val + b.undone = b.subscribed + 1
    omega
  | unsubscribe source =>
    rcases b.call_unsubscribe source with ⟨-, hcall⟩ | ⟨c, hc, hcall⟩
    · rw [hcall]
      exact h
    · rw [hcall, tell_count, tell_undone, tell_subscribed]
      show c.val + (b.undone + 1) = b.subscribed
      omega

/-- **The count is exact in every run of calls that it has room for**: it is what the calls say, and what
was subscribed less what was undone. -/
theorem count_after (calls : List (Call S))
    (h : ∀ n, unmatched ((calls.map Call.operation).take n) < Limit.unsigned) :
    (new.after calls).count = unmatched (calls.map Call.operation) ∧
      (new.after calls).count + (new.after calls).undone = (new.after calls).subscribed := by
  induction calls using List.reverseRecOn with
  | nil => exact ⟨rfl, rfl⟩
  | append_singleton calls call ih =>
    have hcalls : ∀ n, unmatched ((calls.map Call.operation).take n) < Limit.unsigned := by
      apply unmatched_take_lt h
      rw [List.map_append]
      apply List.prefix_append
    obtain ⟨hcount, hsum⟩ := ih hcalls
    have hroom : call.operation.balance (new.after calls).count < Limit.unsigned := by
      have := h (calls.length + 1)
      rwa [List.take_of_length_le (by simp), List.map_append, List.map_singleton, unmatched_append,
        ← hcount] at this
    rw [after_append, List.map_append, List.map_singleton, unmatched_append, ← hcount]
    refine ⟨?_, count_add_call hsum call hroom⟩
    rw [count_call]
    exact Nat.min_eq_left (Nat.le_sub_one_of_lt hroom)

/-- **A subscription counts exactly, whatever sources it is given**, as long as no more subscriptions are
left without undoing them than fit the count.  The count is what was subscribed less what was undone;
undoing fails just when that is zero, and then changes nothing.  All that is told takes turns, starting with
`register`: each call tells the source that it is given, and it does so just when it moves the count between
zero and one.  Every source receives what it is told, and something is counted just when the last that was
told is `register`. -/
theorem exact_among_sources (calls : List (Call S))
    (h : ∀ n, unmatched ((calls.map Call.operation).take n) < Limit.unsigned) :
    let b := (new : Switchboard S).after calls
    (b.count = unmatched (calls.map Call.operation) ∧ b.count + b.undone = b.subscribed) ∧
    (∀ source, ((b.call (.unsubscribe source)).1 = .error .unmatched ↔ b.undone = b.subscribed) ∧
      (b.undone = b.subscribed → b.call (.unsubscribe source) = (.error .unmatched, b))) ∧
    Alternate (b.told.map Prod.snd) ∧
    (∀ call, (b.call call).2.told =
      b.told ++ crossing call.source b.count (b.call call).2.count) ∧
    (∀ source, b.sources source = (b.toldTo source).foldl (fun s x => s.receive (some x)) .idle) ∧
    (b.subscription.isActive = true ↔ ∃ source, b.told.getLast? = some (source, .register)) := by
  intro b
  obtain ⟨hcount, hsum⟩ := count_after calls h
  have hturn : b.InTurn := inTurn_after calls
  refine ⟨⟨hcount, hsum⟩, ?_, hturn.alternate, b.told_call, hturn.received, hturn.isActive_iff⟩
  intro source
  have hzero : b.undone = b.subscribed ↔ b.count = 0 := by
    have hsum : b.count + b.undone = b.subscribed := hsum
    omega
  rw [hzero]
  rcases b.call_unsubscribe source with ⟨hnone, hcall⟩ | ⟨c, hc, hcall⟩
  · rw [hcall]
    exact ⟨⟨fun _ => hnone, fun _ => rfl⟩, fun _ => rfl⟩
  · have hpos : b.count ≠ 0 := by omega
    refine ⟨⟨?_, fun hnone => absurd hnone hpos⟩, fun hnone => absurd hnone hpos⟩
    rw [hcall]
    intro hfails
    cases hfails

/-- Two sources that take turns, with an undoing too many at the start and another one in between. -/
def twoLamps : List (Call Bool) :=
  [.unsubscribe true, .subscribe true, .subscribe false, .unsubscribe true, .unsubscribe false,
    .unsubscribe false, .subscribe false]

/-- The source that is told to stop is the one given to the call that undid the last subscription, and not
the one that was told to start. -/
theorem exact_among_sources_twoLamps :
    let b := (new : Switchboard Bool).after twoLamps
    (∀ n, unmatched ((twoLamps.map Call.operation).take n) < Limit.unsigned) ∧
    b.told = [(true, .register), (false, .unregister), (false, .register)] ∧
    (b.count = 1 ∧ b.count + b.undone = b.subscribed) ∧
    ∃ source, b.told.getLast? = some (source, .register) := by
  intro b
  have hroom : ∀ n, unmatched ((twoLamps.map Call.operation).take n) < Limit.unsigned := by
    intro n
    refine Nat.lt_of_le_of_lt (unmatched_le_length _) ?_
    exact Nat.lt_of_le_of_lt (List.length_take_le' n _) (by decide)
  obtain ⟨hexact, -, -, -, -, hactive⟩ := exact_among_sources twoLamps hroom
  exact ⟨hroom, by decide, hexact, hactive.mp (by decide)⟩

end Switchboard

end ShaderReport

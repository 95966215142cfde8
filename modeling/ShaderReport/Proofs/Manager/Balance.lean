import ShaderReport.Proofs.Manager.Run

/-!
# The balance of subscriptions

A queued job holds one subscription, and each client holds those that it did not undo.  All of them
share one count and one source.  This file shows that they never get out of step, whatever the jobs
answer and whenever they change their mind:

* `Manager.Keeps m k` says that the manager holds `k` subscriptions and told its source accordingly.
  Holding one more and releasing one keep it (`Keeps.hold`, `Keeps.release`), and nothing else
  touches the count, the source or the signals.
* `Manager.Balanced m n` adds the queue to it: `k` is the number of queued jobs, which is at most
  one, plus the `n` subscriptions of others.  Every operation keeps it (`Balanced.perform`).

So the release of a job's subscription never finds the count at zero, and nothing of that is ever
logged.
-/

namespace ShaderReport

variable {F W : Type}

/-! ### Signals in turn -/

/-- Every other signal is `register`, the first one included. -/
def Alternate (ss : List Signal) : Prop :=
  ∀ i s, ss[i]? = some s → (s = .register ↔ i % 2 = 0)

theorem Alternate.append {ss : List Signal} {s : Signal} (h : Alternate ss)
    (hs : s = .register ↔ ss.length % 2 = 0) : Alternate (ss ++ [s]) := by
  intro i t ht
  rcases Nat.lt_trichotomy i ss.length with hi | hi | hi
  · rw [List.getElem?_append_left hi] at ht
    exact h i t ht
  · subst hi
    rw [List.getElem?_concat_length] at ht
    cases ht
    exact hs
  · rw [List.getElem?_eq_none (by simp only [List.length_append, List.length_singleton]; omega)]
      at ht
    cases ht

theorem Alternate.turn {ss : List Signal} {s : Signal} {k k' : Nat} (h : Alternate ss)
    (hparity : ss.length % 2 = if k = 0 then 0 else 1) (hs : s = .register ↔ k = 0)
    (hk : k' = 0 ↔ k ≠ 0) :
    Alternate (ss ++ [s]) ∧ (ss ++ [s]).length % 2 = if k' = 0 then 0 else 1 := by
  rw [List.length_append, List.length_singleton]
  by_cases hzero : k = 0
  · rw [if_pos hzero] at hparity
    rw [if_neg (by omega)]
    refine ⟨h.append ?_, by omega⟩
    rw [hparity]
    exact iff_of_true (hs.mpr hzero) rfl
  · rw [if_neg hzero] at hparity
    rw [if_pos (hk.mpr hzero)]
    refine ⟨h.append ?_, by omega⟩
    rw [hparity]
    exact iff_of_false (fun he => hzero (hs.mp he)) (by decide)

namespace Manager

/-! ### What a manager holds -/

/-- The manager holds the given number of subscriptions: its source was told of the first one and of
the end of the last one, in turn, and never of an end that was none. -/
structure Keeps (m : Manager F W) (held : Nat) : Prop where
  count : m.subscription.count.val = held
  alternate : Alternate m.signals
  parity : m.signals.length % 2 = if held = 0 then 0 else 1
  source : m.source = m.signals.foldl (fun s x => s.receive (some x)) .idle
  registered : m.source.registered = true ↔ 0 < held
  matched : ∀ r, Event.logged r ∉ m.history

theorem keeps_new (w : W) : (new w : Manager F W).Keeps 0 where
  count := rfl
  alternate := by intro i s h; simp [signals, new] at h
  parity := rfl
  source := rfl
  registered := by simp [new, TickSource.idle]
  matched := by simp [new]

/-- Only the count, the source and the history matter to what a manager holds. -/
theorem Keeps.congr {m : Manager F W} {k : Nat} (h : m.Keeps k) (m' : Manager F W)
    (hc : m'.subscription = m.subscription) (hs : m'.source = m.source)
    (hh : m'.history = m.history) : m'.Keeps k := by
  have hsig : m'.signals = m.signals := by rw [signals, signals, hh]
  constructor
  · rw [hc]; exact h.count
  · rw [hsig]; exact h.alternate
  · rw [hsig]; exact h.parity
  · rw [hsig, hs]; exact h.source
  · rw [hs]; exact h.registered
  · rw [hh]; exact h.matched

/-- An event that is no signal and no log record changes nothing of it. -/
theorem Keeps.record {m : Manager F W} {k : Nat} (h : m.Keeps k) {e : Event}
    (hs : ∀ s, e ≠ .signal s) (hl : ∀ r, e ≠ .logged r) : (m.record e).Keeps k := by
  have hsig : (m.record e).signals = m.signals := by
    cases e <;> simp_all [Manager.record, signals]
  constructor
  · exact h.count
  · rw [hsig]; exact h.alternate
  · rw [hsig]; exact h.parity
  · rw [hsig]; exact h.source
  · exact h.registered
  · intro r hm
    rcases List.mem_cons.mp hm with he | hm
    · exact hl r he.symm
    · exact h.matched r hm

theorem signals_tell (m : Manager F W) (s : Signal) :
    (m.tell (some s)).signals = m.signals ++ [s] := by
  simp [tell, Manager.record, signals]

theorem Keeps.tell {m : Manager F W} {k k' : Nat} (h : m.Keeps k) (c : Subscription)
    (hc : c.count.val = k') (s : Signal) (hs : s = .register ↔ k = 0) (hk : k' = 0 ↔ k ≠ 0) :
    ({ m with subscription := c }.tell (some s)).Keeps k' := by
  have hsig : ({ m with subscription := c }.tell (some s)).signals = m.signals ++ [s] :=
    signals_tell _ s
  obtain ⟨halternate, hparity⟩ := h.alternate.turn h.parity hs hk
  constructor
  · exact hc
  · rw [hsig]
    exact halternate
  · rw [hsig]
    exact hparity
  · rw [hsig, List.foldl_append, ← h.source]
    rfl
  · cases s
    · have : k = 0 := hs.mp rfl
      simp only [Manager.tell, Manager.record, TickSource.receive, true_iff]
      omega
    · have : k ≠ 0 := fun h0 => by cases hs.mpr h0
      simp only [Manager.tell, Manager.record, TickSource.receive, Bool.false_eq_true, false_iff]
      omega
  · intro r hm
    simp only [Manager.tell, Manager.record, List.mem_cons, reduceCtorEq, false_or] at hm
    exact h.matched r hm

theorem Keeps.hold {m : Manager F W} {k : Nat} (h : m.Keeps k) (hk : k < Limit.unsigned - 1) :
    m.hold.Keeps (k + 1) := by
  have hc : (⟨m.subscription.count.succ⟩ : Subscription).count.val = k + 1 := by
    rw [Count.val_succ, h.count]
    exact Nat.min_eq_left (Nat.succ_le_of_lt hk)
  by_cases h0 : k = 0
  · have hm : m.hold = { m with subscription := ⟨m.subscription.count.succ⟩ }.tell
        (some .register) := by
      simp [Manager.hold, Subscription.subscribe, h.count, h0]
    rw [hm]
    exact h.tell _ hc .register (by simp [h0]) (by simp [h0])
  · have hm : m.hold = { m with subscription := ⟨m.subscription.count.succ⟩ } := by
      simp [Manager.hold, Subscription.subscribe, h.count, h0, Manager.tell]
    have hp := h.parity
    rw [if_neg h0] at hp
    have hr := h.registered
    rw [hm]
    exact ⟨hc, h.alternate, by rw [if_neg (by omega)]; exact hp, h.source,
      by constructor <;> intro _ <;> [omega; exact hr.mpr (by omega)], h.matched⟩

theorem Keeps.unsubscribe {m : Manager F W} {k : Nat} (h : m.Keeps (k + 1)) :
    ∃ c signal, m.subscription.unsubscribe = .ok (c, signal) ∧
      ({ m with subscription := c }.tell signal).Keeps k := by
  rcases m.subscription.unsubscribe_cases with ⟨hnone, -⟩ | ⟨c, hcount, hu⟩
  · rw [h.count] at hnone
    omega
  · have hc : c.val = k := by
      rw [h.count] at hcount
      omega
    refine ⟨⟨c⟩, _, hu, ?_⟩
    by_cases h0 : k = 0
    · rw [if_pos (by omega)]
      exact h.tell _ hc .unregister (by simp) (by simp [h0])
    · have hpar := h.parity
      have hr := h.registered
      rw [if_neg (by omega)] at hpar
      rw [if_neg (by omega)]
      exact ⟨hc, h.alternate, by rw [if_neg h0]; exact hpar, h.source,
        by constructor <;> intro _ <;> [omega; exact hr.mpr (by omega)], h.matched⟩

/-- The release of one of at least one subscriptions never gets to its log record. -/
theorem Keeps.release {m : Manager F W} {k : Nat} (ws : Workshop F W) (h : m.Keeps (k + 1)) :
    (m.release ws).Keeps k := by
  obtain ⟨c, signal, hu, hk⟩ := h.unsubscribe
  rw [Manager.release, hu]
  exact hk

/-! ### What holding and releasing leave alone -/

@[simp] theorem tell_queue (m : Manager F W) (s : Option Signal) : (m.tell s).queue = m.queue := by
  cases s <;> rfl

@[simp] theorem tell_external (m : Manager F W) (s : Option Signal) :
    (m.tell s).external = m.external := by
  cases s <;> rfl

@[simp] theorem tell_created (m : Manager F W) (s : Option Signal) :
    (m.tell s).created = m.created := by
  cases s <;> rfl

@[simp] theorem tell_factories (m : Manager F W) (s : Option Signal) :
    (m.tell s).factories = m.factories := by
  cases s <;> rfl

@[simp] theorem tell_world (m : Manager F W) (s : Option Signal) : (m.tell s).world = m.world := by
  cases s <;> rfl

@[simp] theorem hold_factories (m : Manager F W) : m.hold.factories = m.factories := by
  simp [Manager.hold]

@[simp] theorem hold_world (m : Manager F W) : m.hold.world = m.world := by
  simp [Manager.hold]

@[simp] theorem hold_queue (m : Manager F W) : m.hold.queue = m.queue := by
  simp [Manager.hold]

@[simp] theorem hold_external (m : Manager F W) : m.hold.external = m.external := by
  simp [Manager.hold]

@[simp] theorem hold_created (m : Manager F W) : m.hold.created = m.created := by
  simp [Manager.hold]

@[simp] theorem release_queue (m : Manager F W) (ws : Workshop F W) :
    (m.release ws).queue = m.queue := by
  unfold Manager.release
  split
  · simp
  · rfl

@[simp] theorem release_external (m : Manager F W) (ws : Workshop F W) :
    (m.release ws).external = m.external := by
  unfold Manager.release
  split
  · simp
  · rfl

@[simp] theorem release_created (m : Manager F W) (ws : Workshop F W) :
    (m.release ws).created = m.created := by
  unfold Manager.release
  split
  · simp
  · rfl

@[simp] theorem release_factories (m : Manager F W) (ws : Workshop F W) :
    (m.release ws).factories = m.factories := by
  unfold Manager.release
  split
  · simp
  · rfl

@[simp] theorem start_factories (m : Manager F W) (ws : Workshop F W) (factory : F) (asset : Asset) :
    (m.start ws factory asset).factories = m.factories := by
  rw [Manager.start, hold_factories]
  rfl

@[simp] theorem start_external (m : Manager F W) (ws : Workshop F W) (factory : F) (asset : Asset) :
    (m.start ws factory asset).external = m.external := by
  rw [Manager.start, hold_external]
  rfl

@[simp] theorem start_world (m : Manager F W) (ws : Workshop F W) (factory : F) (asset : Asset) :
    (m.start ws factory asset).world =
      ws.createJob factory m.created asset (ws.prepare m.world) := by
  rw [Manager.start, hold_world]
  rfl

@[simp] theorem start_queue (m : Manager F W) (ws : Workshop F W) (factory : F) (asset : Asset) :
    (m.start ws factory asset).queue = m.queue ++ [m.created] := by
  rw [Manager.start, hold_queue]
  rfl

@[simp] theorem start_created (m : Manager F W) (ws : Workshop F W) (factory : F) (asset : Asset) :
    (m.start ws factory asset).created = m.created + 1 := by
  rw [Manager.start, hold_created]
  rfl

@[simp] theorem subscribe_queue (m : Manager F W) : m.subscribe.queue = m.queue := by
  simp [Manager.subscribe]

@[simp] theorem subscribe_factories (m : Manager F W) : m.subscribe.factories = m.factories := by
  simp [Manager.subscribe]

@[simp] theorem subscribe_created (m : Manager F W) : m.subscribe.created = m.created := by
  simp [Manager.subscribe]

@[simp] theorem unsubscribe_queue (m : Manager F W) : m.unsubscribe.2.queue = m.queue := by
  unfold Manager.unsubscribe
  split
  · rfl
  · simp only
    split
    · simp
    · rfl

@[simp] theorem unsubscribe_factories (m : Manager F W) :
    m.unsubscribe.2.factories = m.factories := by
  unfold Manager.unsubscribe
  split
  · rfl
  · simp only
    split
    · simp
    · rfl

@[simp] theorem unsubscribe_created (m : Manager F W) : m.unsubscribe.2.created = m.created := by
  unfold Manager.unsubscribe
  split
  · rfl
  · simp only
    split
    · simp
    · rfl

/-! ### The queue along with the subscriptions of others -/

/-- One subscription is held for the queued job, if there is one, and one for each of the given
number of others. -/
structure Balanced (m : Manager F W) (others : Nat) : Prop where
  queue : m.queue.length ≤ 1
  external : m.external.val = others
  keeps : m.Keeps (m.queue.length + others)

theorem balanced_new (w : W) : (new w : Manager F W).Balanced 0 :=
  ⟨Nat.zero_le _, rfl, keeps_new w⟩

theorem partitionJobs_length (ws : Workshop F W) (js : List JobId) (w : W) :
    (partitionJobs ws js w).1.length + (partitionJobs ws js w).2.1.length = js.length := by
  induction js generalizing w with
  | nil => rfl
  | cons j js ih =>
    rcases hc : ws.isComplete j w with ⟨complete, w'⟩
    rcases hp : partitionJobs ws js w' with ⟨running, finished, w''⟩
    have hjs := ih w'
    simp only [hp] at hjs
    rw [partitionJobs, hc]
    cases complete <;> simp only [hp, Bool.false_eq_true, if_true, if_false, List.length_cons] <;>
      omega

theorem Keeps.sweepAll (ws : Workshop F W) (finished : List JobId) {m : Manager F W} {k : Nat}
    (h : m.Keeps (finished.length + k)) :
    let m' := finished.foldl (fun m j => (m.record (.swept j)).release ws) m
    m'.Keeps k ∧ m'.queue = m.queue ∧ m'.external = m.external := by
  induction finished generalizing m with
  | nil => exact ⟨by simpa using h, rfl, rfl⟩
  | cons j js ih =>
    have hj : (m.record (.swept j)).Keeps (js.length + k + 1) := by
      have := h.record (e := .swept j) (by simp) (by simp)
      rwa [List.length_cons, Nat.add_right_comm] at this
    obtain ⟨hk, hq, he⟩ := ih (hj.release ws)
    exact ⟨hk, by rw [List.foldl_cons, hq, release_queue]; rfl,
      by rw [List.foldl_cons, he, release_external]; rfl⟩

theorem Balanced.sweep {m : Manager F W} {n : Nat} (h : m.Balanced n) (ws : Workshop F W) :
    (m.sweep ws).Balanced n := by
  have hlen := partitionJobs_length ws m.queue m.world
  unfold Manager.sweep
  cases hp : partitionJobs ws m.queue m.world with
  | mk running rest =>
    obtain ⟨finished, w⟩ := rest
    rw [hp] at hlen
    simp only at hlen ⊢
    -- The jobs that leave the queue hold their subscriptions until each is released.
    have hk : ({ m with queue := running, world := w } : Manager F W).Keeps
        (finished.length + (running.length + n)) := by
      have := h.keeps.congr { m with queue := running, world := w } rfl rfl rfl
      rwa [← hlen, show running.length + finished.length + n =
        finished.length + (running.length + n) by omega] at this
    obtain ⟨hk', hq, he⟩ := Keeps.sweepAll ws finished hk
    have hle := h.queue
    exact ⟨by rw [hq]; simp only; omega, by rw [he]; exact h.external, by rw [hq]; exact hk'⟩

theorem Balanced.warn {m : Manager F W} {n : Nat} (h : m.Balanced n) (ws : Workshop F W)
    (w : Warning) : (m.warn ws w).Balanced n :=
  ⟨h.queue, h.external,
    (h.keeps.congr { m with world := ws.warn w m.world } rfl rfl rfl).record (by simp) (by simp)⟩

/-- A job that starts on an empty queue holds the one subscription that there is still room for. -/
theorem Balanced.start {m : Manager F W} {n : Nat} (h : m.Balanced n) (ws : Workshop F W)
    (factory : F) (asset : Asset) (hq : m.queue = []) (hn : n < Limit.unsigned - 1) :
    (m.start ws factory asset).Balanced n := by
  have hk := h.keeps
  rw [hq, List.length_nil, Nat.zero_add] at hk
  have h1 : ({ m with world := ws.prepare m.world }.record .prepared).Keeps n :=
    (hk.congr { m with world := ws.prepare m.world } rfl rfl rfl).record (by simp) (by simp)
  have h2 := (h1.congr { { m with world := ws.prepare m.world }.record .prepared with
    world := ws.createJob factory m.created asset (ws.prepare m.world)
    created := m.created + 1
    queue := m.queue ++ [m.created] } rfl rfl rfl).record (e := .created m.created asset)
      (by simp) (by simp)
  have hlen : (m.start ws factory asset).queue.length = 1 := by
    simp [Manager.start, Manager.record, hq]
  refine ⟨Nat.le_of_eq hlen, ?_, ?_⟩
  · rw [start_external]
    exact h.external
  · rw [hlen, Nat.add_comm]
    exact h2.hold hn

theorem Balanced.submit {m : Manager F W} {n : Nat} (h : m.Balanced n) (ws : Workshop F W)
    (asset : Asset) (target : BuildTarget) (hn : n < Limit.unsigned - 1) :
    (m.submit ws asset target).2.Balanced n := by
  unfold Manager.submit
  split
  · exact h.warn ws _
  · have hs := h.sweep ws
    simp only
    split
    · next hidle => exact hs.start ws _ asset (by simpa [isIdle] using hidle) hn
    · exact hs.warn ws _

theorem Balanced.submitPath {m : Manager F W} {n : Nat} (h : m.Balanced n) (ws : Workshop F W)
    (path : Path) (target : BuildTarget) (hn : n < Limit.unsigned - 1) :
    (m.submitPath ws path target).2.Balanced n := by
  unfold Manager.submitPath
  split
  · exact h
  · exact h.submit ws _ target hn

/-- A job that leaves the queue on its tick was the only one, and gives back its subscription. -/
theorem Balanced.onTick {m : Manager F W} {n : Nat} (h : m.Balanced n) (ws : Workshop F W) :
    (m.onTick ws).Balanced n := by
  unfold Manager.onTick
  split
  · exact h
  · next j js hq =>
    have hle := h.queue
    have hk := h.keeps
    rw [hq, List.length_cons] at hle hk
    obtain rfl : js = [] := List.eq_nil_of_length_eq_zero (by omega)
    have ht : ({ m with world := (ws.tick j m.world).2 }.record
        (.ticked j (ws.tick j m.world).1)).Keeps (n + 1) := by
      rw [List.length_nil, Nat.zero_add, Nat.add_comm] at hk
      exact (hk.congr { m with world := (ws.tick j m.world).2 } rfl rfl rfl).record
        (by simp) (by simp)
    simp only
    split
    · refine ⟨by simp, by rw [release_external]; exact h.external, ?_⟩
      rw [release_queue, List.length_nil, Nat.zero_add]
      exact (ht.congr { { m with world := (ws.tick j m.world).2 }.record
        (.ticked j (ws.tick j m.world).1) with queue := [] } rfl rfl rfl).release ws
    · refine ⟨by simp [Manager.record, hq], h.external, ?_⟩
      simpa [Manager.record, hq, Nat.add_comm] using ht

theorem Balanced.unsubscribe {m : Manager F W} {n : Nat} (h : m.Balanced n) :
    (n = 0 ∧ m.unsubscribe = (.error .unmatched, m)) ∨
      (0 < n ∧ m.unsubscribe.1 = .ok () ∧ m.unsubscribe.2.Balanced (n - 1)) := by
  rw [Manager.unsubscribe]
  cases he : m.external.pred? with
  | none =>
    rw [Count.pred?_eq_none, h.external] at he
    exact Or.inl ⟨he, rfl⟩
  | some external =>
    have hv := Count.val_of_pred? he
    rw [h.external] at hv
    -- The count of all subscriptions is not below that of the clients, so it is not at zero either.
    have hk : ({ m with external := external } : Manager F W).Keeps
        (m.queue.length + external.val + 1) := by
      have := h.keeps.congr { m with external := external } rfl rfl rfl
      rwa [hv, ← Nat.add_assoc] at this
    obtain ⟨c, signal, hu, hk'⟩ := hk.unsubscribe
    simp only at hu
    refine Or.inr ⟨by omega, by simp only [hu], ?_⟩
    simp only [hu, hv, Nat.add_sub_cancel]
    exact ⟨by simpa using h.queue, by simp, by simpa using hk'⟩

/-- **Every operation keeps the balance**, as long as the count has room for a job next to the
subscriptions of others. -/
theorem Balanced.perform {m : Manager F W} {n : Nat} (h : m.Balanced n) (ws : Workshop F W)
    (op : Operation F W) (hn : n < Limit.unsigned - 1)
    (hop : op.balance n < Limit.unsigned - 1) : (m.perform ws op).2.Balanced (op.balance n) := by
  cases op with
  | register target factory => exact ⟨h.queue, h.external, h.keeps.congr _ rfl rfl rfl⟩
  | submit asset target => exact h.submit ws asset target hn
  | submitPath path target => exact h.submitPath ws path target hn
  | tick => exact h.onTick ws
  | subscribe =>
    have hq := h.queue
    have hroom : m.queue.length + n < Limit.unsigned - 1 :=
      Nat.lt_of_le_of_lt (by simp only [Operation.balance]; omega) hop
    refine ⟨by simpa [Manager.perform, Manager.subscribe] using hq, ?_, ?_⟩
    · simp only [Manager.perform, Manager.subscribe, hold_external, Count.val_succ, h.external]
      exact Nat.min_eq_left (Nat.succ_le_of_lt hn)
    · have hk := (h.keeps.congr { m with external := m.external.succ } rfl rfl rfl).hold
        hroom
      simpa [Manager.perform, Manager.subscribe, Operation.balance, Nat.add_assoc] using hk
  | unsubscribe =>
    rcases h.unsubscribe with ⟨rfl, hu⟩ | ⟨-, -, hb⟩
    · rw [Manager.perform, hu]
      exact h
    · exact hb
  | disturb change => exact ⟨h.queue, h.external, h.keeps.congr _ rfl rfl rfl⟩

/-- **Every run keeps the balance.** -/
theorem balanced_after (ws : Workshop F W) (w : W) (ops : List (Operation F W))
    (h : ∀ n, unmatched (ops.take n) < Limit.unsigned - 1) :
    ((new w).after ws ops).Balanced (unmatched ops) := by
  induction ops using List.reverseRecOn with
  | nil => exact balanced_new w
  | append_singleton ops op ih =>
    have hops := unmatched_take_lt h (List.prefix_append ops [op])
    have hn := hops ops.length
    have hop := h (ops.length + 1)
    rw [List.take_length] at hn
    rw [List.take_of_length_le (by simp), unmatched_append] at hop
    rw [after_append, unmatched_append]
    exact (ih hops).perform ws op hn hop

/-- **Jobs and subscriptions balance after every operation of every run.**  At most one job is
queued; the count is that of the queued jobs and of the subscriptions of others together; the source
was told `register` and `unregister` in turn, and delivers ticks just when somebody is subscribed;
and no job ever released a subscription that it did not hold, which is all that a manager logs. -/
theorem run_balanced (ws : Workshop F W) (w : W) (ops : List (Operation F W))
    (h : ∀ n, unmatched (ops.take n) < Limit.unsigned - 1) (n : Nat) :
    let m := (new w).after ws (ops.take n)
    m.pendingJobs ≤ 1 ∧
      m.subscriptionCount = m.pendingJobs + unmatched (ops.take n) ∧
      (Alternate m.signals ∧ m.source = m.signals.foldl (fun s x => s.receive (some x)) .idle ∧
        (m.source.registered = true ↔ 0 < m.subscriptionCount)) ∧
      ∀ r, Event.logged r ∉ m.history := by
  have hb := balanced_after ws w (ops.take n) fun k => by rw [List.take_take]; exact h _
  have hk := hb.keeps
  refine ⟨hb.queue, hk.count, ⟨hk.alternate, hk.source, ?_⟩, hk.matched⟩
  rw [hk.registered]
  simp only [subscriptionCount, hk.count]

/-- Jobs that answer every question as a script tells. -/
def scripted : Workshop Unit (List Bool) where
  isCapable _ _ := true
  prepare := id
  createShaderJob _ _ _ := id
  createComputeShaderJob _ _ _ := id
  createMaterialJob _ _ _ := id
  tick _ w := (w.headD true, w.tail)
  isComplete _ w := (w.headD true, w.tail)
  warn _ := id
  log _ := id

/-- A refused submission, an undoing too many, and a job that is swept before another one starts. -/
def restless : List (Operation Unit (List Bool)) :=
  let asset : Asset := ⟨.shader, .ofString "Lit.shader"⟩
  [.register .offline (), .subscribe, .submit asset .offline, .submit asset .offline, .unsubscribe,
    .unsubscribe, .submit asset .offline, .tick]

/-- The source of the restless run is told four signals, the last two of them by its second job. -/
theorem run_balanced_restless :
    let m := (new [false, true, true]).after scripted (restless.take 8)
    m.signals = [.register, .unregister, .register, .unregister] ∧ m.pendingJobs ≤ 1 ∧
      m.subscriptionCount = m.pendingJobs + unmatched (restless.take 8) ∧
      (Alternate m.signals ∧ m.source = m.signals.foldl (fun s x => s.receive (some x)) .idle ∧
        (m.source.registered = true ↔ 0 < m.subscriptionCount)) ∧
      ∀ r, Event.logged r ∉ m.history :=
  ⟨by decide, run_balanced scripted [false, true, true] restless
    (fun n => Nat.lt_of_le_of_lt (unmatched_le_length _)
      (Nat.lt_of_le_of_lt (List.length_take_le' n restless) (by decide))) 8⟩

end Manager

end ShaderReport

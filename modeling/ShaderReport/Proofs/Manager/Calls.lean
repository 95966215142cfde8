import ShaderReport.Proofs.Manager.Run

/-!
# What jobs are called for

A workshop can write down which jobs it makes, which ones it ticks or asks whether they are complete,
and what they answer (`Workshop.logged`).  The log belongs to the world, so the manager neither sees it
nor can leave anything out: `calls` is what a run asks of its jobs.

Writing the log changes nothing else that the manager does (`withLog_onTick`, `withLog_sweep`,
`withLog_start`).  So a law about calls is one about the run of the workshop that writes none.
-/

namespace ShaderReport

variable {F W : Type}

/-- What a manager does to a job, with the answer of the job. -/
inductive Call where
  | created (job : JobId)
  | ticked (job : JobId) (complete : Bool)
  | asked (job : JobId) (complete : Bool)
  deriving DecidableEq, Repr

/-- The job that a call is for. -/
def Call.job : Call → JobId
  | .created job => job
  | .ticked job _ => job
  | .asked job _ => job

/-- The workshop that also writes down its calls, oldest first. -/
def Workshop.logged (ws : Workshop F W) : Workshop F (W × List Call) where
  isCapable f v := ws.isCapable f v.1
  prepare v := (ws.prepare v.1, v.2)
  createShaderJob f job path v := (ws.createShaderJob f job path v.1, v.2 ++ [.created job])
  createComputeShaderJob f job path v :=
    (ws.createComputeShaderJob f job path v.1, v.2 ++ [.created job])
  createMaterialJob f job path v := (ws.createMaterialJob f job path v.1, v.2 ++ [.created job])
  tick job v := ((ws.tick job v.1).1, (ws.tick job v.1).2, v.2 ++ [.ticked job (ws.tick job v.1).1])
  isComplete job v :=
    ((ws.isComplete job v.1).1, (ws.isComplete job v.1).2,
      v.2 ++ [.asked job (ws.isComplete job v.1).1])
  warn w v := (ws.warn w v.1, v.2)
  log r v := (ws.log r v.1, v.2)

theorem Workshop.logged_createJob (ws : Workshop F W) (factory : F) (job : JobId) (asset : Asset)
    (w : W) (cs : List Call) :
    ws.logged.createJob factory job asset (w, cs) =
      (ws.createJob factory job asset w, cs ++ [.created job]) := by
  rw [createJob, createJob]
  cases asset.kind <;> rfl

/-- The operation in a world with a log, which it does not touch by itself. -/
def Operation.logged : Operation F W → Operation F (W × List Call)
  | .register target factory => .register target factory
  | .submit asset target => .submit asset target
  | .submitPath path target => .submitPath path target
  | .tick => .tick
  | .subscribe => .subscribe
  | .unsubscribe => .unsubscribe
  | .disturb change => .disturb fun v => (change v.1, v.2)

namespace Manager

/-- The calls of a run. -/
def calls (ws : Workshop F W) (w : W) (ops : List (Operation F W)) : List Call :=
  ((new (w, [])).after ws.logged (ops.map .logged)).world.2

/-- The manager with a log in its world. -/
def withLog (m : Manager F W) (cs : List Call) : Manager F (W × List Call) where
  queue := m.queue
  factories := m.factories
  subscription := m.subscription
  external := m.external
  source := m.source
  created := m.created
  history := m.history
  world := (m.world, cs)

/-! ### Ticking and sweeping, job by job -/

variable (ws : Workshop F W) {m : Manager F W}

theorem queue_cases (h : m.queue.length ≤ 1) : m.queue = [] ∨ ∃ j, m.queue = [j] := by
  cases hq : m.queue with
  | nil => exact Or.inl rfl
  | cons j js =>
    rw [hq, List.length_cons] at h
    obtain rfl : js = [] := List.eq_nil_of_length_eq_zero (by omega)
    exact Or.inr ⟨j, rfl⟩

theorem onTick_cons {j : JobId} {js : List JobId} (hq : m.queue = j :: js) :
    m.onTick ws =
      if (ws.tick j m.world).1 then
        { { m with world := (ws.tick j m.world).2 }.record (.ticked j (ws.tick j m.world).1) with
          queue := js }.release ws
      else { m with world := (ws.tick j m.world).2 }.record (.ticked j (ws.tick j m.world).1) := by
  rw [onTick, hq]

theorem onTick_nil (hq : m.queue = []) : m.onTick ws = m := by
  rw [onTick, hq]

theorem sweep_nil (hq : m.queue = []) : m.sweep ws = m := by
  cases m
  cases hq
  rfl

theorem sweep_single {j : JobId} (hq : m.queue = [j]) :
    m.sweep ws =
      if (ws.isComplete j m.world).1 then
        ({ m with queue := [], world := (ws.isComplete j m.world).2 }.record (.swept j)).release ws
      else { m with world := (ws.isComplete j m.world).2 } := by
  rw [sweep, hq]
  simp only [partitionJobs]
  cases (ws.isComplete j m.world).1 with
  | true => rfl
  | false =>
    cases m
    cases hq
    rfl

/-! ### The log does not interfere -/

variable (m) (cs : List Call)

@[simp] theorem withLog_queue : (m.withLog cs).queue = m.queue := rfl

@[simp] theorem withLog_world : (m.withLog cs).world = (m.world, cs) := rfl

theorem withLog_tell (s : Option Signal) : (m.withLog cs).tell s = (m.tell s).withLog cs := by
  cases s <;> rfl

theorem withLog_hold : (m.withLog cs).hold = m.hold.withLog cs :=
  withLog_tell { m with subscription := m.subscription.subscribe.1 } cs _

theorem withLog_release : (m.withLog cs).release ws.logged = (m.release ws).withLog cs := by
  rw [release, release, show (m.withLog cs).subscription = m.subscription from rfl]
  cases m.subscription.unsubscribe with
  | ok r => exact withLog_tell { m with subscription := r.1 } cs r.2
  | error cause => rfl

theorem withLog_subscribe : (m.withLog cs).subscribe = m.subscribe.withLog cs :=
  withLog_hold { m with external := m.external.succ } cs

theorem withLog_unsubscribe :
    (m.withLog cs).unsubscribe = (m.unsubscribe.1, m.unsubscribe.2.withLog cs) := by
  rw [unsubscribe, unsubscribe, show (m.withLog cs).external = m.external from rfl]
  cases m.external.pred? with
  | none => rfl
  | some external =>
    simp only [show (m.withLog cs).subscription = m.subscription from rfl]
    cases m.subscription.unsubscribe with
    | ok r =>
      exact congrArg (Prod.mk _) (withLog_tell { m with
        external := external
        subscription := r.1 } cs r.2)
    | error cause => rfl

theorem withLog_start (factory : F) (asset : Asset) :
    (m.withLog cs).start ws.logged factory asset =
      (m.start ws factory asset).withLog (cs ++ [.created m.created]) := by
  rw [start, start, ← withLog_hold]
  exact congrArg (fun v => ({ m with
    world := v
    created := m.created + 1
    queue := m.queue ++ [m.created]
    history := .created m.created asset :: .prepared :: m.history } :
      Manager F (W × List Call)).hold) (ws.logged_createJob factory m.created asset _ cs)

theorem withLog_onTick :
    (m.withLog cs).onTick ws.logged = (m.onTick ws).withLog
      (cs ++ m.queue.head?.toList.map fun j => .ticked j (ws.tick j m.world).1) := by
  cases hq : m.queue with
  | nil =>
    rw [onTick_nil ws hq, onTick_nil ws.logged (show (m.withLog cs).queue = [] from hq)]
    simp
  | cons j js =>
    rw [onTick_cons ws hq, onTick_cons ws.logged (show (m.withLog cs).queue = j :: js from hq)]
    rw [show (ws.logged.tick j (m.withLog cs).world).1 = (ws.tick j m.world).1 from rfl]
    by_cases hc : (ws.tick j m.world).1 = true
    · rw [if_pos hc, if_pos hc, ← withLog_release]
      rfl
    · rw [if_neg hc, if_neg hc]
      rfl

theorem withLog_sweep {j : JobId} (hq : m.queue = [j]) :
    (m.withLog cs).sweep ws.logged =
      (m.sweep ws).withLog (cs ++ [.asked j (ws.isComplete j m.world).1]) := by
  rw [sweep_single ws hq, sweep_single ws.logged (show (m.withLog cs).queue = [j] from hq)]
  rw [show (ws.logged.isComplete j (m.withLog cs).world).1 = (ws.isComplete j m.world).1 from rfl]
  by_cases hc : (ws.isComplete j m.world).1 = true
  · rw [if_pos hc, if_pos hc, ← withLog_release]
    rfl
  · rw [if_neg hc, if_neg hc]
    rfl

end Manager

end ShaderReport

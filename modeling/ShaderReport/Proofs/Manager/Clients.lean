import ShaderReport.Proofs.Manager.Balance
import ShaderReport.Proofs.Manager.Calls

/-!
# Jobs and clients

The jobs of a manager and its clients, who subscribe to the ticks for reasons of their own, share one
count and one source.  Still neither side can tell whether the other one is there: a run without the
operations of the clients gives the jobs all that the whole run gives them, and a run without any other
operations gives the clients the same answers (`trace_erased`).

`Manager.jobSide` is what the jobs have of a manager.  An operation of a client leaves it alone
(`jobSide_client`), and what any other one makes of it depends on nothing else (`perform_jobSide`).  For
this the releases of jobs must not fail, which is where the balance of the whole comes in.
-/

namespace ShaderReport

variable {F W : Type}

/-- Whether an operation is one of a client. -/
def Operation.isClients : Operation F W → Bool
  | .subscribe | .unsubscribe => true
  | _ => false

/-- Whether an event is a signal to the source. -/
def Event.isSignal : Event → Bool
  | .signal _ => true
  | _ => false

namespace Manager

/-- The manager without subscriptions and without what the source was told: the queue, the platforms,
the jobs made and the world, along with all else that was done to the outside. -/
def jobSide (m : Manager F W) : Manager F W :=
  { m with
    subscription := .none
    external := 0
    source := .idle
    history := m.history.filter (!·.isSignal) }

variable {ws : Workshop F W} {m m' : Manager F W} {n n' : Nat}

/-! ### What does not reach the jobs -/

theorem jobSide_tell (m : Manager F W) (s : Option Signal) : (m.tell s).jobSide = m.jobSide := by
  cases s <;> rfl

theorem jobSide_hold (m : Manager F W) : m.hold.jobSide = m.jobSide :=
  jobSide_tell { m with subscription := m.subscription.subscribe.1 } _

theorem Keeps.jobSide_release {k : Nat} (h : m.Keeps (k + 1)) :
    (m.release ws).jobSide = m.jobSide := by
  obtain ⟨c, signal, hu, -⟩ := h.unsubscribe
  rw [Manager.release, hu]
  exact jobSide_tell { m with subscription := c } signal

theorem jobSide_subscribe (m : Manager F W) : m.subscribe.jobSide = m.jobSide :=
  jobSide_hold { m with external := m.external.succ }

theorem jobSide_unsubscribe (m : Manager F W) : m.unsubscribe.2.jobSide = m.jobSide := by
  rw [unsubscribe]
  cases m.external.pred? with
  | none => rfl
  | some external =>
    simp only
    cases m.subscription.unsubscribe with
    | ok r => exact jobSide_tell { m with external := external, subscription := r.1 } r.2
    | error cause => rfl

/-- **The jobs do not see what clients do.** -/
theorem jobSide_client (ws : Workshop F W) (m : Manager F W) {op : Operation F W}
    (hop : op.isClients = true) : (m.perform ws op).2.jobSide = m.jobSide := by
  cases op with
  | subscribe => exact jobSide_subscribe m
  | unsubscribe => exact jobSide_unsubscribe m
  | _ => cases hop

/-! ### What the jobs see -/

@[simp] theorem jobSide_queue (m : Manager F W) : m.jobSide.queue = m.queue := rfl

@[simp] theorem jobSide_world (m : Manager F W) : m.jobSide.world = m.world := rfl

theorem jobSide_warn (m : Manager F W) (w : Warning) :
    (m.warn ws w).jobSide = m.jobSide.warn ws w := rfl

theorem jobSide_start (m : Manager F W) (factory : F) (asset : Asset) :
    (m.start ws factory asset).jobSide =
      ({ m.jobSide with
          queue := m.jobSide.queue ++ [m.jobSide.created]
          created := m.jobSide.created + 1
          world := ws.createJob factory m.jobSide.created asset (ws.prepare m.jobSide.world) }.record
        .prepared).record (.created m.jobSide.created asset) := by
  rw [start, jobSide_hold]
  rfl

theorem Balanced.keeps_single (h : m.Balanced n) {j : JobId} (hq : m.queue = [j]) :
    m.Keeps (n + 1) := by
  have hk := h.keeps
  rwa [hq, List.length_singleton, Nat.add_comm] at hk

theorem Balanced.jobSide_sweep (h : m.Balanced n) {j : JobId} (hq : m.queue = [j]) :
    (m.sweep ws).jobSide =
      if (ws.isComplete j m.jobSide.world).1 then
        { m.jobSide with queue := [], world := (ws.isComplete j m.jobSide.world).2 }.record
          (.swept j)
      else { m.jobSide with world := (ws.isComplete j m.jobSide.world).2 } := by
  rw [sweep_single ws hq, jobSide_world]
  split
  · have hk : ({ m with queue := [], world := (ws.isComplete j m.world).2 }.record
        (.swept j)).Keeps (n + 1) :=
      ((h.keeps_single hq).congr { m with queue := [], world := (ws.isComplete j m.world).2 }
        rfl rfl rfl).record (by simp) (by simp)
    rw [hk.jobSide_release]
    rfl
  · rfl

theorem Balanced.jobSide_onTick (h : m.Balanced n) {j : JobId} (hq : m.queue = [j]) :
    (m.onTick ws).jobSide =
      if (ws.tick j m.jobSide.world).1 then
        { m.jobSide with queue := [], world := (ws.tick j m.jobSide.world).2 }.record
          (.ticked j (ws.tick j m.jobSide.world).1)
      else { m.jobSide with world := (ws.tick j m.jobSide.world).2 }.record
        (.ticked j (ws.tick j m.jobSide.world).1) := by
  rw [onTick_cons ws hq, jobSide_world]
  split
  · have hk : ({ m with queue := [], world := (ws.tick j m.world).2 }.record
        (.ticked j (ws.tick j m.world).1)).Keeps (n + 1) :=
      ((h.keeps_single hq).congr { m with queue := [], world := (ws.tick j m.world).2 }
        rfl rfl rfl).record (by simp) (by simp)
    exact hk.jobSide_release
  · rfl

section SameSide

variable (hb : m.Balanced n) (hb' : m'.Balanced n') (h : m.jobSide = m'.jobSide)

include hb hb' h

theorem sweep_jobSide : (m.sweep ws).jobSide = (m'.sweep ws).jobSide := by
  have hq : m.queue = m'.queue := by rw [← jobSide_queue, h, jobSide_queue]
  rcases queue_cases hb.queue with hnil | ⟨j, hj⟩
  · rwa [sweep_nil ws hnil, sweep_nil ws (hq ▸ hnil)]
  · rw [hb.jobSide_sweep hj, hb'.jobSide_sweep (hq ▸ hj), h]

theorem onTick_jobSide : (m.onTick ws).jobSide = (m'.onTick ws).jobSide := by
  have hq : m.queue = m'.queue := by rw [← jobSide_queue, h, jobSide_queue]
  rcases queue_cases hb.queue with hnil | ⟨j, hj⟩
  · rwa [onTick_nil ws hnil, onTick_nil ws (hq ▸ hnil)]
  · rw [hb.jobSide_onTick hj, hb'.jobSide_onTick (hq ▸ hj), h]

variable (ws) in
theorem submit_jobSide (asset : Asset) (target : BuildTarget) :
    (m.submit ws asset target).1 = (m'.submit ws asset target).1 ∧
      (m.submit ws asset target).2.jobSide = (m'.submit ws asset target).2.jobSide := by
  have hs : (m.sweep ws).jobSide = (m'.sweep ws).jobSide := sweep_jobSide hb hb' h
  have hf : m.capableFactory ws target = m'.capableFactory ws target :=
    (congrArg (fun side => side.capableFactory ws target) h :)
  have hidle : (m.sweep ws).isIdle = (m'.sweep ws).isIdle := (congrArg isIdle hs :)
  have hcreated : (m.sweep ws).created = (m'.sweep ws).created := (congrArg Manager.created hs :)
  rw [submit, submit, ← hf]
  cases m.capableFactory ws target with
  | none => exact ⟨rfl, by simp only [jobSide_warn, h]⟩
  | some factory =>
    simp only [← hidle]
    split
    · exact ⟨congrArg some hcreated, by simp only [jobSide_start, hs]⟩
    · exact ⟨rfl, by simp only [jobSide_warn, hs]⟩

variable (ws) in
/-- **What the other operations do to the jobs depends on their side only.** -/
theorem perform_jobSide {op : Operation F W} (hop : op.isClients = false) :
    (m.perform ws op).1 = (m'.perform ws op).1 ∧
      (m.perform ws op).2.jobSide = (m'.perform ws op).2.jobSide := by
  cases op with
  | register target factory =>
    exact ⟨rfl, (congrArg (fun side => side.register target factory) h :)⟩
  | submit asset target =>
    obtain ⟨hanswer, hside⟩ := submit_jobSide ws hb hb' h asset target
    exact ⟨by simp only [perform, hanswer], hside⟩
  | submitPath path target =>
    simp only [perform, submitPath]
    cases Asset.ofPath path with
    | error e => exact ⟨rfl, h⟩
    | ok asset =>
      obtain ⟨hanswer, hside⟩ := submit_jobSide ws hb hb' h asset target
      exact ⟨by simp only [hanswer], hside⟩
  | tick => exact ⟨rfl, onTick_jobSide hb hb' h⟩
  | subscribe => cases hop
  | unsubscribe => cases hop
  | disturb change =>
    exact ⟨rfl, (congrArg (fun side : Manager F W => { side with world := change side.world }) h :)⟩

end SameSide

/-! ### What the clients see -/

variable (ws) in
/-- **What clients are told depends on the number of their subscriptions only.** -/
theorem perform_client (hb : m.Balanced n) (hb' : m'.Balanced n) {op : Operation F W}
    (hop : op.isClients = true) : (m.perform ws op).1 = (m'.perform ws op).1 := by
  cases op with
  | subscribe => rfl
  | unsubscribe =>
    simp only [perform, Answer.unsubscribed.injEq]
    rcases hb.unsubscribe with ⟨h0, he⟩ | ⟨h0, he, -⟩ <;>
      rcases hb'.unsubscribe with ⟨h0', he'⟩ | ⟨h0', he', -⟩
    · rw [he, he']
    · omega
    · omega
    · rw [he, he']
  | _ => cases hop

end Manager

/-! ### Subscriptions in a part of a run -/

section Unmatched

variable {ops : List (Operation F W)}

theorem Operation.balance_of_not_clients {op : Operation F W} (h : op.isClients = false) (n : Nat) :
    op.balance n = n := by
  cases op <;> first | rfl | cases h

theorem unmatched_filter_clients (ops : List (Operation F W)) :
    unmatched (ops.filter (·.isClients)) = unmatched ops := by
  induction ops using List.reverseRecOn with
  | nil => rfl
  | append_singleton ops op ih =>
    rw [List.filter_append, unmatched_append, ← ih]
    cases hop : op.isClients with
    | true => rw [List.filter_cons_of_pos hop, List.filter_nil, unmatched_append]
    | false =>
      rw [List.filter_cons_of_neg (by simp [hop]), List.filter_nil, List.append_nil,
        Operation.balance_of_not_clients hop]

theorem unmatched_filter_others (ops : List (Operation F W)) :
    unmatched (ops.filter (!·.isClients)) = 0 := by
  have hnone : (ops.filter (!·.isClients)).filter (·.isClients) = [] :=
    List.filter_eq_nil_iff.mpr (by simp)
  rw [← unmatched_filter_clients, hnone]
  rfl

theorem unmatched_take_filter_clients {bound : Nat}
    (h : ∀ n, unmatched (ops.take n) < bound) (n : Nat) :
    unmatched ((ops.filter (·.isClients)).take n) < bound := by
  obtain ⟨before, hb, he⟩ := List.prefix_filter_iff.mp
    (List.take_prefix n (ops.filter (·.isClients)))
  rw [he, unmatched_filter_clients]
  have := unmatched_take_lt h hb before.length
  rwa [List.take_length] at this

theorem unmatched_take_filter_others {bound : Nat}
    (h : ∀ n, unmatched (ops.take n) < bound) (n : Nat) :
    unmatched ((ops.filter (!·.isClients)).take n) < bound := by
  obtain ⟨before, -, he⟩ := List.prefix_filter_iff.mp
    (List.take_prefix n (ops.filter (!·.isClients)))
  rw [he, unmatched_filter_others]
  exact Nat.zero_lt_of_lt (h 0)

end Unmatched

namespace Manager

/-- A part of a run shows the same without the rest, if each of its operations does. -/
theorem trace_filter {V : Type} (view : Performed F W → V) (ws : Workshop F W) (m : Manager F W)
    (p : Operation F W → Bool) (ops : List (Operation F W))
    (h : ∀ before op, before ++ [op] <+: ops → p op = true →
      view ((m.after ws before).performed ws op) =
        view ((m.after ws (before.filter p)).performed ws op)) :
    ((m.trace ws ops).filter (p ·.operation)).map view =
      (m.trace ws (ops.filter p)).map view := by
  induction ops using List.reverseRecOn with
  | nil => rfl
  | append_singleton ops op ih =>
    have hops := ih fun before op' hb => h before op' (hb.trans (List.prefix_append ops [op]))
    have hoperation : p ((m.after ws ops).performed ws op).operation = p op := rfl
    rw [trace_append, List.filter_append, List.map_append, hops, List.filter_append]
    simp only [List.filter_cons, List.filter_nil, hoperation]
    cases hop : p op with
    | true =>
      simp only [if_true, trace_append, List.map_append, List.map_singleton,
        h ops op (List.prefix_refl _) hop]
    | false => simp only [Bool.false_eq_true, if_false, List.map_nil, List.append_nil]

end Manager

/-- What the jobs have of an operation performed. -/
def Performed.jobSide (p : Performed F W) : Performed F W :=
  { p with manager := p.manager.jobSide }

namespace Manager

section Runs

variable (ws : Workshop F W) (w : W) {ops : List (Operation F W)}
  (h : ∀ n, unmatched (ops.take n) < Limit.unsigned - 1)

include h

theorem balanced_without_clients :
    ((new w).after ws (ops.filter (!·.isClients))).Balanced 0 := by
  have hb := balanced_after ws w _ (unmatched_take_filter_others h)
  rwa [unmatched_filter_others] at hb

theorem balanced_clients_only :
    ((new w).after ws (ops.filter (·.isClients))).Balanced (unmatched ops) := by
  have hb := balanced_after ws w _ (unmatched_take_filter_clients h)
  rwa [unmatched_filter_clients] at hb

theorem jobSide_without_clients :
    ((new w).after ws ops).jobSide = ((new w).after ws (ops.filter (!·.isClients))).jobSide := by
  induction ops using List.reverseRecOn with
  | nil => rfl
  | append_singleton ops op ih =>
    have hops := unmatched_take_lt h (List.prefix_append ops [op])
    rw [after_append, List.filter_append]
    cases hop : op.isClients with
    | true =>
      rw [jobSide_client ws _ hop, ih hops, List.filter_cons_of_neg (by simp [hop])]
      simp
    | false =>
      rw [List.filter_cons_of_pos (by simp [hop]), List.filter_nil, after_append]
      exact (perform_jobSide ws (balanced_after ws w ops hops) (balanced_without_clients ws w hops)
        (ih hops) hop).2

end Runs

/-- **Jobs and clients do not interfere.**  Without the operations of the clients, every other one is
answered as before and leaves the same to the jobs: what was created, ticked, swept, prepared and
warned of, the queue, and the world.  Without the other operations, the clients are answered as before.
An attempt to undo a subscription fails just when none of those before is left, and changes nothing. -/
theorem trace_erased (ws : Workshop F W) (w : W) (ops : List (Operation F W))
    (h : ∀ n, unmatched (ops.take n) < Limit.unsigned - 1) :
    (((new w).trace ws ops).filter (!·.operation.isClients)).map Performed.jobSide =
        ((new w).trace ws (ops.filter (!·.isClients))).map Performed.jobSide ∧
      (((new w).trace ws ops).filter (·.operation.isClients)).map
          (fun p => (p.operation, p.answer)) =
        ((new w).trace ws (ops.filter (·.isClients))).map (fun p => (p.operation, p.answer)) ∧
      ∀ before, before <+: ops →
        let m := (new w).after ws before
        (m.unsubscribe.1 = .error .unmatched ↔ unmatched before = 0) ∧
          (m.unsubscribe.1 ≠ .ok () → m.unsubscribe = (.error .unmatched, m)) := by
  refine ⟨?_, ?_, ?_⟩
  · refine trace_filter _ ws (new w) (!·.isClients) ops fun before op hb hop => ?_
    have hbefore := unmatched_take_lt h ((List.prefix_append before [op]).trans hb)
    have hop' : op.isClients = false := by simpa using hop
    obtain ⟨hanswer, hside⟩ := perform_jobSide ws (balanced_after ws w before hbefore)
      (balanced_without_clients ws w hbefore) (jobSide_without_clients ws w hbefore) hop'
    simp only [Performed.jobSide, performed, hanswer, hside]
  · refine trace_filter _ ws (new w) (·.isClients) ops fun before op hb hop => ?_
    have hbefore := unmatched_take_lt h ((List.prefix_append before [op]).trans hb)
    have hanswer := perform_client ws (balanced_after ws w before hbefore)
      (balanced_clients_only ws w hbefore) hop
    simp only [performed, hanswer]
  · intro before hb m
    have hbalanced : m.Balanced (unmatched before) :=
      balanced_after ws w before (unmatched_take_lt h hb)
    rcases hbalanced.unsubscribe with ⟨hnone, hu⟩ | ⟨hsome, hu, -⟩
    · exact ⟨by simp [hu, hnone], fun _ => hu⟩
    · exact ⟨by simp [hu]; omega, fun hfails => absurd hu hfails⟩

/-- In the restless run the second undoing fails, with and without the job that is queued by then. -/
theorem trace_erased_restless :
    (((new [false, true, true]).trace scripted restless).filter (·.operation.isClients)).map
        (·.answer) = [.nothing, .unsubscribed (.ok ()), .unsubscribed (.error .unmatched)] ∧
      (((new [false, true, true]).trace scripted restless).filter (!·.operation.isClients)).map
          Performed.jobSide =
        ((new [false, true, true]).trace scripted (restless.filter (!·.isClients))).map
          Performed.jobSide ∧
      (((new [false, true, true]).trace scripted restless).filter (·.operation.isClients)).map
          (fun p => (p.operation, p.answer)) =
        ((new [false, true, true]).trace scripted (restless.filter (·.isClients))).map
          (fun p => (p.operation, p.answer)) :=
  have erased := trace_erased scripted [false, true, true] restless fun n =>
    Nat.lt_of_le_of_lt (unmatched_le_length _)
      (Nat.lt_of_le_of_lt (List.length_take_le' n restless) (by decide))
  ⟨rfl, erased.1, erased.2.1⟩

end Manager

end ShaderReport

import ShaderReport.Proofs.Manager.Idle
import ShaderReport.Proofs.Manager.Submission

/-!
# Managers of offline platforms

If all platforms are offline ones, every job analyses a source, and only the manager ticks it
(`Operation.IsOffline`).  Then a job is in the queue just as long as it is not complete: this is `Tended`,
which every operation keeps (`Tended.perform`).  It needs no bound on the number of operations.

So a submission never finds a job to sweep, and a manager with a job in the queue is one with a job that
still needs ticks.  How many these are is `Bench.ticksLeft`, and every tick takes one off
(`Tended.ticksLeft_onTick`).
-/

namespace ShaderReport

/-- Whether an operation registers no platforms but offline ones, and no job but by the manager comes to
be or changes. -/
inductive Operation.IsOffline : Operation Platform Bench → Prop where
  | register (target : BuildTarget) (p : OfflinePlatform) : IsOffline (.register target (.offline p))
  | submit (asset : Asset) (target : BuildTarget) : IsOffline (.submit asset target)
  | submitPath (path : Path) (target : BuildTarget) : IsOffline (.submitPath path target)
  | tick : IsOffline .tick
  | subscribe : IsOffline .subscribe
  | unsubscribe : IsOffline .unsubscribe
  | disturb (change : Bench → Bench) (h : ∀ b, (change b).jobs = b.jobs) : IsOffline (.disturb change)

namespace Manager

/-! ### Ticks and the world of jobs -/

section Ticks

variable {F W : Type} (ws : Workshop F W)

theorem onTick_created (m : Manager F W) : (m.onTick ws).created = m.created := by
  cases hq : m.queue with
  | nil => rw [onTick_nil ws hq]
  | cons j js =>
    rw [onTick_cons ws hq]
    split
    · rw [release_created]
      rfl
    · rfl

theorem unsubscribe_world (m : Manager F W) : m.unsubscribe.2.world = m.world := by
  rw [unsubscribe]
  cases m.external.pred? with
  | none => rfl
  | some external =>
    rcases m.subscription.unsubscribe_cases with ⟨-, hu⟩ | ⟨c, -, hu⟩
    · simp only [hu]
    · simp only [hu, tell_world]

end Ticks

variable (prepare : Bench → Bench) {m : Manager Platform Bench} {id : JobId} {j : SourceJob}

theorem release_world (m : Manager Platform Bench) :
    (m.release (Bench.workshop prepare)).world.jobs = m.world.jobs ∧
      (m.release (Bench.workshop prepare)).world.files = m.world.files := by
  rw [(release_eq _ m).2.1]
  split <;> exact ⟨rfl, rfl⟩

/-- What a tick does to the only job in the queue, and what becomes of its place and its subscription. -/
theorem onTick_source (hq : m.queue = [id]) (hj : m.world.jobs[id]? = some (.source j)) :
    let next := (j.tick m.world.files).1
    let m' := m.onTick (Bench.workshop prepare)
    m'.queue = (if next.isComplete = true then [] else [id]) ∧
      m'.subscriptionCount = m.subscriptionCount - (if next.isComplete = true then 1 else 0) ∧
      m'.world.jobs = m.world.jobs.set id (.source next) ∧
      m'.world.files = (j.tick m.world.files).2.1 := by
  intro next m'
  have htick : (Bench.workshop prepare).tick id m.world = _ := tickJob_source hj
  have hm' : m' = _ := onTick_cons (Bench.workshop prepare) hq
  rw [htick] at hm'
  by_cases hc : next.isComplete = true
  · rw [if_pos hc] at hm'
    rw [if_pos hc, if_pos hc, hm']
    obtain ⟨hjobs, hfiles⟩ := release_world prepare _
    exact ⟨release_queue _ _, (release_eq _ _).1, hjobs, hfiles⟩
  · rw [if_neg hc] at hm'
    rw [if_neg hc, if_neg hc, hm']
    exact ⟨hq, rfl, rfl, rfl⟩

/-! ### Jobs in the queue -/

variable {prepare}

/-- A manager of offline platforms, with at most one job in the queue, where the jobs that are in the
queue are those that are not complete. -/
structure Tended (m : Manager Platform Bench) : Prop where
  offline : ∀ target factory, m.factories.lookup target = some factory → ∃ p, factory = .offline p
  created : m.created = m.world.jobs.length
  single : m.queue.length ≤ 1
  queued : ∀ id ∈ m.queue, id < m.created
  jobs : ∀ id job, m.world.jobs[id]? = some job →
    ∃ j, job = .source j ∧ (j.isComplete = true ↔ id ∉ m.queue)

theorem tended_new (files : FileSystem) : (new (Bench.ofFiles files)).Tended where
  offline := by simp [new]
  created := rfl
  single := Nat.zero_le _
  queued := by simp [new]
  jobs := by simp [new, Bench.ofFiles]

theorem Tended.congr (h : m.Tended) {m' : Manager Platform Bench}
    (hf : ∀ target factory, m'.factories.lookup target = some factory → ∃ p, factory = .offline p)
    (hq : m'.queue = m.queue) (hc : m'.created = m.created) (hj : m'.world.jobs = m.world.jobs) :
    m'.Tended where
  offline := hf
  created := by rw [hc, hj, h.created]
  single := hq ▸ h.single
  queued := by rw [hq, hc]; exact h.queued
  jobs := by rw [hq, hj]; exact h.jobs

theorem Tended.queue_cases (h : m.Tended) :
    m.queue = [] ∨ ∃ id j, m.queue = [id] ∧ m.world.jobs[id]? = some (.source j) ∧
      j.isComplete = false := by
  rcases Manager.queue_cases h.single with hq | ⟨id, hq⟩
  · exact Or.inl hq
  · have hmem : id ∈ m.queue := hq ▸ List.mem_cons_self
    have hlt : id < m.world.jobs.length := h.created ▸ h.queued id hmem
    have hget := List.getElem?_eq_getElem hlt
    obtain ⟨j, hj, hcomplete⟩ := h.jobs id _ hget
    rw [hj] at hget
    exact Or.inr ⟨id, j, hq, hget, Bool.eq_false_iff.mpr fun hc => hcomplete.mp hc hmem⟩

theorem Tended.complete (h : m.Tended) (hlt : id < m.created) (hq : id ∉ m.queue) :
    ∃ s, m.world.state? id = some s ∧ s.complete = true := by
  have hget := List.getElem?_eq_getElem (h.created ▸ hlt : id < m.world.jobs.length)
  obtain ⟨j, hj, hcomplete⟩ := h.jobs id _ hget
  rw [hj] at hget
  exact ⟨j.state, by rw [Bench.state?, hget]; rfl, hcomplete.mpr hq⟩

theorem Tended.onTick (h : m.Tended) : (m.onTick (Bench.workshop prepare)).Tended := by
  rcases h.queue_cases with hq | ⟨id, j, hq, hj, -⟩
  · rwa [onTick_nil _ hq]
  · obtain ⟨hqueue, -, hjobs, -⟩ := onTick_source prepare hq hj
    have hcreated := onTick_created (Bench.workshop prepare) m
    refine ⟨?_, ?_, ?_, ?_, ?_⟩
    · rw [onTick_factories]
      exact h.offline
    · rw [hcreated, hjobs, List.length_set, h.created]
    · rw [hqueue]
      split <;> simp
    · rw [hqueue, hcreated]
      intro k hk
      refine h.queued k ?_
      rw [hq]
      split at hk
      · cases hk
      · exact hk
    · rw [hjobs, hqueue]
      intro k job hget
      by_cases hk : id = k
      · -- The job that was ticked is in the queue still, unless it is complete now.
        subst hk
        have hlt : id < m.world.jobs.length := (List.getElem?_eq_some_iff.mp hj).1
        rw [List.getElem?_set_self hlt] at hget
        refine ⟨(j.tick m.world.files).1, (Option.some.inj hget).symm, ?_⟩
        split <;> simp_all
      · rw [List.getElem?_set_ne hk] at hget
        obtain ⟨j', hj', hcomplete⟩ := h.jobs k job hget
        rw [hq] at hcomplete
        refine ⟨j', hj', hcomplete.trans ?_⟩
        split <;> simp [Ne.symm hk]

theorem Tended.start (h : m.Tended) (hp : ∀ b, (prepare b).jobs = b.jobs) (hq : m.queue = [])
    (p : OfflinePlatform) (asset : Asset) :
    (m.start (Bench.workshop prepare) (.offline p) asset).Tended := by
  have hqueue : (m.start (Bench.workshop prepare) (.offline p) asset).queue = [m.created] := by
    rw [start_queue, hq, List.nil_append]
  have hjobs : (m.start (Bench.workshop prepare) (.offline p) asset).world.jobs =
      m.world.jobs ++ [.source (.new asset p.target p.pace p.outputDir)] := by
    rw [start_world, Bench.createJob_workshop, ← hp m.world]
    rfl
  refine ⟨?_, ?_, ?_, ?_, ?_⟩
  · rw [start_factories]
    exact h.offline
  · rw [start_created, hjobs, List.length_append, h.created]
    rfl
  · rw [hqueue]
    exact Nat.le_refl 1
  · rw [hqueue, start_created]
    intro k hk
    rw [List.mem_singleton.mp hk]
    exact Nat.lt_succ_self _
  · rw [hqueue, hjobs, h.created]
    intro k job hget
    rcases Nat.lt_trichotomy k m.world.jobs.length with hk | rfl | hk
    · rw [List.getElem?_append_left hk] at hget
      obtain ⟨j, hj, hcomplete⟩ := h.jobs k job hget
      rw [hq] at hcomplete
      exact ⟨j, hj, hcomplete.trans (by simp [Nat.ne_of_lt hk])⟩
    · rw [List.getElem?_concat_length] at hget
      exact ⟨_, (Option.some.inj hget).symm, by simp [SourceJob.isComplete, SourceJob.outcome,
        SourceJob.new]⟩
    · rw [List.getElem?_eq_none (by rw [List.length_append]; exact hk)] at hget
      cases hget

/-- A submission is refused, or starts a job.  There is never one to be swept. -/
theorem Tended.submit (h : m.Tended) (hp : ∀ b, (prepare b).jobs = b.jobs) (asset : Asset)
    (target : BuildTarget) : (m.submit (Bench.workshop prepare) asset target).2.Tended := by
  cases hf : m.capableFactory (Bench.workshop prepare) target with
  | none =>
    rw [Manager.submit, hf]
    exact h.congr h.offline rfl rfl rfl
  | some factory =>
    rcases h.queue_cases with hq | ⟨id, j, hq, hj, hinc⟩
    · have hlookup := Option.eq_some_of_filter_eq_some hf
      obtain ⟨p, rfl⟩ := h.offline target factory hlookup
      have hsweep := sweep_nil (Bench.workshop prepare) hq
      have hidle : (m.sweep (Bench.workshop prepare)).queue = [] := by rwa [hsweep]
      rw [submit_idle (Bench.workshop prepare) hf hidle, hsweep]
      exact h.start hp hq p asset
    · have hno : ((Bench.workshop prepare).isComplete id m.world).1 = false := by
        simp [Bench.workshop, Bench.isComplete, Bench.state?, hj, Job.state, SourceJob.state, hinc]
      have hsweep := sweep_incomplete hq hno
      have hbusy : (m.sweep (Bench.workshop prepare)).queue ≠ [] := by
        rw [hsweep]
        simp [hq]
      rw [submit_busy (Bench.workshop prepare) hf hbusy, hsweep]
      exact h.congr h.offline rfl rfl rfl

/-- **Every operation leaves the jobs that are not complete in the queue, and no other.** -/
theorem Tended.perform (h : m.Tended) (hp : ∀ b, (prepare b).jobs = b.jobs)
    {op : Operation Platform Bench} (hop : op.IsOffline) :
    (m.perform (Bench.workshop prepare) op).2.Tended := by
  cases hop with
  | register target p =>
    refine h.congr ?_ rfl rfl rfl
    intro t factory hlookup
    rw [lookup_perform] at hlookup
    simp only at hlookup
    split at hlookup
    · exact ⟨p, (Option.some.inj hlookup).symm⟩
    · exact h.offline t factory hlookup
  | submit asset target => exact h.submit hp asset target
  | submitPath path target =>
    simp only [Manager.perform, submitPath]
    cases Asset.ofPath path with
    | error e => exact h
    | ok asset => exact h.submit hp asset target
  | tick => exact h.onTick
  | subscribe =>
    refine h.congr ?_ (subscribe_queue m) (subscribe_created m) ?_
    · rw [Manager.perform, subscribe_factories]
      exact h.offline
    · rw [Manager.perform, Manager.subscribe, hold_world]
  | unsubscribe =>
    refine h.congr ?_ (unsubscribe_queue m) (unsubscribe_created m) ?_
    · rw [Manager.perform, unsubscribe_factories]
      exact h.offline
    · exact congrArg Bench.jobs (unsubscribe_world m)
  | disturb change hchange => exact h.congr h.offline rfl rfl (hchange m.world)

theorem tended_after (hp : ∀ b, (prepare b).jobs = b.jobs) (files : FileSystem)
    {ops : List (Operation Platform Bench)} (hops : ∀ op ∈ ops, op.IsOffline) :
    ((new (Bench.ofFiles files)).after (Bench.workshop prepare) ops).Tended := by
  induction ops using List.reverseRecOn with
  | nil => exact tended_new files
  | append_singleton ops op ih =>
    rw [after_append]
    have hbefore : ∀ op' ∈ ops, op'.IsOffline := fun op' hmem =>
      hops op' (List.mem_append_left [op] hmem)
    exact (ih hbefore).perform hp (hops op (List.mem_append_right ops List.mem_cons_self))

/-! ### Ticks that are left -/

theorem ticksLeft_of_nil (hq : m.queue = []) : Bench.ticksLeft m = 0 := by
  rw [Bench.ticksLeft, hq]
  rfl

theorem ticksLeft_of_single (hq : m.queue = [id]) (hj : m.world.jobs[id]? = some (.source j)) :
    Bench.ticksLeft m = j.ticksLeft m.world.files := by
  rw [Bench.ticksLeft, hq, List.foldr_cons, hj]
  rfl

theorem Tended.ticksLeft_pos (h : m.Tended) : 0 < Bench.ticksLeft m ↔ 0 < m.pendingJobs := by
  rcases h.queue_cases with hq | ⟨id, j, hq, hj, hinc⟩
  · rw [ticksLeft_of_nil hq, pendingJobs, hq, List.length_nil]
  · rw [ticksLeft_of_single hq hj, pendingJobs, hq, Nat.pos_iff_ne_zero, Ne, SourceJob.ticksLeft_eq_zero,
      hinc]
    simp

/-- **Every tick takes one off the ticks that are left.** -/
theorem Tended.ticksLeft_onTick (h : m.Tended) :
    Bench.ticksLeft (m.onTick (Bench.workshop prepare)) = Bench.ticksLeft m - 1 := by
  rcases h.queue_cases with hq | ⟨id, j, hq, hj, -⟩
  · rw [onTick_nil _ hq, ticksLeft_of_nil hq]
  · obtain ⟨hqueue, -, hjobs, hfiles⟩ := onTick_source prepare hq hj
    have hlt : id < m.world.jobs.length := (List.getElem?_eq_some_iff.mp hj).1
    have hnext : (m.onTick (Bench.workshop prepare)).world.jobs[id]? =
        some (.source (j.tick m.world.files).1) := by
      rw [hjobs, List.getElem?_set_self hlt]
    have hleft := SourceJob.ticksLeft_tick j m.world.files (j.tick m.world.files).2.1
    rw [ticksLeft_of_single hq hj, ← hleft]
    by_cases hc : (j.tick m.world.files).1.isComplete = true
    · rw [if_pos hc] at hqueue
      rw [ticksLeft_of_nil hqueue, SourceJob.ticksLeft_eq_zero.mpr hc]
    · rw [if_neg hc] at hqueue
      rw [ticksLeft_of_single hqueue hnext, hfiles]

end Manager

end ShaderReport

import ShaderReport.Proofs.Job.Finish
import ShaderReport.Bench

/-!
# From idle to idle

A manager with nothing to do (`Quiet`) takes a job (`Quiet.submit`), and then has that job to run and
no other (`Runs`).  The loop of the host ticks it for just as long as the job takes, and leaves a
manager with nothing to do again; what became of the job and of the files is what finishing the job by
itself gives (`Runs.runUntilIdle`).
-/

namespace ShaderReport.Manager

/-- A manager with nothing to do. -/
structure Quiet (m : Manager Platform Bench) : Prop where
  queue : m.queue = []
  count : m.subscription.count.val = 0
  source : m.source.registered = false
  created : m.created = m.world.jobs.length

/-- A manager with a single source job to run. -/
structure Runs (m : Manager Platform Bench) (id : JobId) (j : SourceJob) : Prop where
  queue : m.queue = [id]
  count : m.subscription.count.val = 1
  source : m.source.registered = true
  created : m.created = m.world.jobs.length
  job : m.world.jobs[id]? = some (.source j)

/-- What changes while a single job is run: the job, the files, and nothing else that counts. -/
structure Ticked (m m' : Manager Platform Bench) (id : JobId) (j : SourceJob) (fs : FileSystem) :
    Prop where
  files : m'.world.files = fs
  jobs : m'.world.jobs = m.world.jobs.set id (.source j)
  preparation : m'.world.preparation = m.world.preparation
  factories : m'.factories = m.factories
  log : ∃ new, m'.world.log = new ++ m.world.log ∧ ∀ r ∈ new, SourceJob.Logs r
  warned : ∀ {w}, Event.warned w ∈ m'.history → Event.warned w ∈ m.history
  logged : ∀ {r}, Event.logged r ∈ m'.history → Event.logged r ∈ m.history

theorem Ticked.trans {m m₁ m₂ : Manager Platform Bench} {id : JobId} {j₁ j₂ : SourceJob}
    {fs₁ fs₂ : FileSystem} (h₁ : Ticked m m₁ id j₁ fs₁) (h₂ : Ticked m₁ m₂ id j₂ fs₂) :
    Ticked m m₂ id j₂ fs₂ where
  files := h₂.files
  jobs := by rw [h₂.jobs, h₁.jobs, List.set_set]
  preparation := h₂.preparation.trans h₁.preparation
  factories := h₂.factories.trans h₁.factories
  log := by
    obtain ⟨new₁, hlog₁, hnew₁⟩ := h₁.log
    obtain ⟨new₂, hlog₂, hnew₂⟩ := h₂.log
    refine ⟨new₂ ++ new₁, by rw [hlog₂, hlog₁, List.append_assoc], ?_⟩
    exact List.forall_mem_append.mpr ⟨hnew₂, hnew₁⟩
  warned := fun hw => h₁.warned (h₂.warned hw)
  logged := fun hr => h₁.logged (h₂.logged hr)

variable (prepare : Bench → Bench) {m : Manager Platform Bench} {id : JobId} {j : SourceJob}

/-! ### Ticks of the only job -/

theorem tickJob_source {b : Bench} (h : b.jobs[id]? = some (.source j)) :
    b.tickJob id = ((j.tick b.files).1.isComplete,
      { b with
        files := (j.tick b.files).2.1
        jobs := b.jobs.set id (.source (j.tick b.files).1)
        log := (j.tick b.files).2.2.reverse ++ b.log }) := by
  rw [Bench.tickJob, h]
  rfl

theorem Runs.job_set (h : m.Runs id j) (j' : SourceJob) :
    (m.world.jobs.set id (.source j'))[id]? = some (.source j') := by
  have hlt : id < m.world.jobs.length := (List.getElem?_eq_some_iff.mp h.job).1
  exact List.getElem?_set_self hlt

theorem Runs.onTick (h : m.Runs id j) (hn : (j.tick m.world.files).1.isComplete = false) :
    (m.onTick (Bench.workshop prepare)).Runs id (j.tick m.world.files).1 ∧
      Ticked m (m.onTick (Bench.workshop prepare)) id (j.tick m.world.files).1
        (j.tick m.world.files).2.1 := by
  have htick : (Bench.workshop prepare).tick id m.world = _ := tickJob_source h.job
  have hm : m.onTick (Bench.workshop prepare) = { m with
      world := (m.world.tickJob id).2
      history := .ticked id false :: m.history } := by
    simp only [Manager.onTick, h.queue, htick, hn, Manager.record, tickJob_source h.job]
    rfl
  rw [hm, tickJob_source h.job]
  exact ⟨⟨h.queue, h.count, h.source, by simpa using h.created, h.job_set _⟩, rfl, rfl, rfl, rfl,
    ⟨_, rfl, fun r hr => SourceJob.logs_of_mem_tick (List.mem_reverse.mp hr)⟩, by simp, by simp⟩

theorem unsubscribe_of_count {s : Subscription} (h : s.count.val = 1) :
    ∃ s', s.unsubscribe = .ok (s', some .unregister) ∧ s'.count.val = 0 := by
  rcases s.unsubscribe_cases with ⟨hnone, -⟩ | ⟨c, hc, hu⟩
  · omega
  · have hzero : c.val = 0 := by omega
    rw [if_pos hzero] at hu
    exact ⟨⟨c⟩, hu, hzero⟩

theorem Runs.onTick_last (h : m.Runs id j) (hc : (j.tick m.world.files).1.isComplete = true) :
    (m.onTick (Bench.workshop prepare)).Quiet ∧
      Ticked m (m.onTick (Bench.workshop prepare)) id (j.tick m.world.files).1
        (j.tick m.world.files).2.1 := by
  obtain ⟨s, hs, hzero⟩ := unsubscribe_of_count h.count
  have htick : (Bench.workshop prepare).tick id m.world = _ := tickJob_source h.job
  have hm : m.onTick (Bench.workshop prepare) = { m with
      queue := []
      subscription := s
      source := m.source.receive (some .unregister)
      world := (m.world.tickJob id).2
      history := .signal .unregister :: .ticked id true :: m.history } := by
    simp only [Manager.onTick, h.queue, htick, hc, Manager.record, tickJob_source h.job,
      Manager.release, hs, Manager.tell]
    rfl
  rw [hm, tickJob_source h.job]
  exact ⟨⟨rfl, hzero, rfl, by simpa using h.created⟩, rfl, rfl, rfl, rfl,
    ⟨_, rfl, fun r hr => SourceJob.logs_of_mem_tick (List.mem_reverse.mp hr)⟩, by simp, by simp⟩

theorem Quiet.runUntilIdle (h : m.Quiet) (ws : Workshop Platform Bench) (limit : Nat) :
    m.runUntilIdle ws limit = (0, m) := by
  cases limit with
  | zero => rfl
  | succ limit => rw [Manager.runUntilIdle, if_neg (by simp [h.source])]

/-- **The loop of the host finishes the only job.** -/
theorem Runs.runUntilIdle (h : m.Runs id j) (hinc : j.isComplete = false) :
    ∃ m', m.runUntilIdle (Bench.workshop prepare) (j.ticksLeft m.world.files) =
        ((j.finish m.world.files).1, m') ∧ m'.Quiet ∧
      Ticked m m' id (j.finish m.world.files).2.1 (j.finish m.world.files).2.2.1 := by
  induction hk : j.ticksLeft m.world.files generalizing m j with
  | zero =>
    rw [SourceJob.ticksLeft_eq_zero, hinc] at hk
    cases hk
  | succ k ih =>
    have hleft := SourceJob.ticksLeft_tick j m.world.files (j.tick m.world.files).2.1
    rw [hk, Nat.add_sub_cancel] at hleft
    rw [SourceJob.finish_tick hinc, Manager.runUntilIdle, if_pos h.source]
    cases hc : (j.tick m.world.files).1.isComplete with
    | true =>
      obtain ⟨hquiet, hticked⟩ := h.onTick_last prepare hc
      rw [SourceJob.finish_of_isComplete hc, hquiet.runUntilIdle]
      exact ⟨_, rfl, hquiet, hticked⟩
    | false =>
      obtain ⟨hruns, hticked⟩ := h.onTick prepare hc
      rw [← hticked.files] at hleft
      obtain ⟨m', hm', hquiet, hticked'⟩ := ih hruns hc hleft
      rw [hm', hticked.files]
      rw [hticked.files] at hticked'
      exact ⟨m', rfl, hquiet, hticked.trans hticked'⟩

/-! ### Taking a job -/

/-- **A manager with nothing to do takes any job of a capable platform.** -/
theorem Quiet.submit (h : m.Quiet) (hjobs : (prepare m.world).jobs = m.world.jobs)
    {target : BuildTarget} {p : OfflinePlatform}
    (hf : m.capableFactory (Bench.workshop prepare) target = some (.offline p)) (asset : Asset) :
    ∃ m', m.submit (Bench.workshop prepare) asset target = (some m.created, m') ∧
      m'.Runs m.created (.new asset p.target p.pace p.outputDir) ∧
      m'.world = (prepare m.world).addJob (.offline p) asset ∧ m'.factories = m.factories ∧
      m'.history = .signal .register :: .created m.created asset :: .prepared :: m.history := by
  have hsweep : m.sweep (Bench.workshop prepare) = m := by
    cases m
    cases h.queue
    rfl
  have hidle : m.isIdle = true := by rw [isIdle, h.queue]; rfl
  have hsub : m.subscription.subscribe = (⟨m.subscription.count.succ⟩, some .register) := by
    rw [Subscription.subscribe, if_pos h.count]
  have hstart : m.start (Bench.workshop prepare) (.offline p) asset = { m with
      queue := m.queue ++ [m.created]
      subscription := ⟨m.subscription.count.succ⟩
      source := m.source.receive (some .register)
      created := m.created + 1
      history := .signal .register :: .created m.created asset :: .prepared :: m.history
      world := (prepare m.world).addJob (.offline p) asset } := by
    simp only [start, hold, record, hsub, tell, Bench.createJob_workshop]
    rfl
  refine ⟨m.start (Bench.workshop prepare) (.offline p) asset, ?_, ?_, ?_, ?_, ?_⟩
  · rw [Manager.submit, hf]
    simp only [hsweep, hidle, if_true]
  · rw [hstart]
    refine ⟨by rw [h.queue]; rfl, by simp [h.count], rfl, ?_, ?_⟩
    · simp [Bench.addJob, hjobs, h.created]
    · simp [Bench.addJob, hjobs, h.created, Job.ofPlatform]
  · rw [hstart]
  · rw [hstart]
  · rw [hstart]

end ShaderReport.Manager

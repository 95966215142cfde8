import Mathlib.Logic.Function.Iterate
import ShaderReport.Manager.Loop
import ShaderReport.Proofs.FileSystem.Access
import ShaderReport.Proofs.Job.Timing
import ShaderReport.Proofs.Manager.Offline

/-!
# When the loop of the host returns

The loop ticks the manager while its source is registered, and so it knows nothing of jobs.  Whether it
returns is a matter of subscriptions, and when it does is a matter of the job in the queue: `Hosted` joins
the two, and a tick keeps it (`Hosted.onTick`).

* Without subscriptions of others the source is registered just as long as ticks are left, so the loop
  makes as many cycles as that (`Hosted.returns`).
* With one it is registered forever, and the loop does not return (`Hosted.not_returns`).

`Returns` is the loop without a bound on its cycles.  It also looks at the world after each cycle, as the
host does to log how far its job is.  What it looks at makes no difference (`exists_returns_iff`).
-/

namespace ShaderReport.Manager

/-! ### The loop without a bound -/

section Loop

variable {F W α : Type} (ws : Workshop F W) (watch : W → α)

/-- The loop of the host returns from a manager to another one, and saw something of the world after each
of its cycles. -/
inductive Returns : Manager F W → List α → Manager F W → Prop where
  | idle {m : Manager F W} (h : m.source.registered = false) : Returns m [] m
  | cycle {m m' : Manager F W} {seen : List α} (h : m.source.registered = true)
      (rest : Returns (m.onTick ws) seen m') : Returns m (watch (m.onTick ws).world :: seen) m'

variable {ws watch} {m m' : Manager F W} {seen : List α}

theorem runUntilIdle_idle (h : m.source.registered = false) (limit : Nat) :
    m.runUntilIdle ws limit = (0, m) := by
  cases limit with
  | zero => rfl
  | succ limit => rw [runUntilIdle, if_neg (by rw [h]; exact Bool.false_ne_true)]

theorem runUntilIdle_cycle (h : m.source.registered = true) (limit : Nat) :
    m.runUntilIdle ws (limit + 1) =
      (((m.onTick ws).runUntilIdle ws limit).1 + 1, ((m.onTick ws).runUntilIdle ws limit).2) := by
  rw [runUntilIdle, if_pos h]

theorem Returns.unregistered (h : Returns ws watch m seen m') : m'.source.registered = false := by
  induction h with
  | idle h => exact h
  | cycle _ _ ih => exact ih

theorem Returns.runUntilIdle_eq (h : Returns ws watch m seen m') (more : Nat) :
    m.runUntilIdle ws (seen.length + more) = (seen.length, m') := by
  induction h with
  | idle h => exact runUntilIdle_idle h _
  | cycle h _ ih => rw [List.length_cons, Nat.add_right_comm, runUntilIdle_cycle h, ih]

/-- **What the loop looks at changes neither the number of its cycles nor where it ends**: they are those of
the loop that looks at nothing. -/
theorem exists_returns_iff {n : Nat} :
    (∃ seen : List α, seen.length = n ∧ Returns ws watch m seen m') ↔
      m.runUntilIdle ws n = (n, m') ∧ m'.source.registered = false := by
  constructor
  · rintro ⟨seen, rfl, h⟩
    exact ⟨h.runUntilIdle_eq 0, h.unregistered⟩
  · induction n generalizing m with
    | zero =>
      rintro ⟨hrun, hidle⟩
      obtain rfl : m = m' := congrArg Prod.snd hrun
      exact ⟨[], rfl, .idle hidle⟩
    | succ n ih =>
      rintro ⟨hrun, hidle⟩
      cases hr : m.source.registered with
      | false =>
        rw [runUntilIdle_idle hr] at hrun
        cases congrArg Prod.fst hrun
      | true =>
        rw [runUntilIdle_cycle hr, Prod.mk.injEq, Nat.add_right_cancel_iff] at hrun
        obtain ⟨seen, hlength, h⟩ := ih ⟨Prod.ext hrun.1 hrun.2, hidle⟩
        exact ⟨_, congrArg (· + 1) hlength, .cycle hr h⟩

theorem Returns.unique {seen' : List α} {m'' : Manager F W} (h : Returns ws watch m seen m')
    (h' : Returns ws watch m seen' m'') : seen = seen' ∧ m' = m'' := by
  induction h generalizing seen' with
  | idle h =>
    cases h' with
    | idle => exact ⟨rfl, rfl⟩
    | cycle hr _ => exact absurd (h.symm.trans hr) Bool.false_ne_true
  | cycle h _ ih =>
    cases h' with
    | idle hr => exact absurd (hr.symm.trans h) Bool.false_ne_true
    | cycle _ rest =>
      obtain ⟨rfl, rfl⟩ := ih rest
      exact ⟨rfl, rfl⟩

end Loop

/-! ### The job in the queue and the subscriptions -/

/-- A manager of offline platforms whose source is registered just as long as there are subscriptions: one
for each job in the queue, and those of others. -/
structure Hosted (m : Manager Platform Bench) (others : Nat) : Prop where
  tended : m.Tended
  tuned : m.IsTuned
  count : m.subscriptionCount = m.pendingJobs + others

variable {prepare : Bench → Bench} {m : Manager Platform Bench} {others : Nat}

theorem Hosted.registered_iff (h : m.Hosted others) :
    m.source.registered = true ↔ 0 < Bench.ticksLeft m ∨ 0 < others := by
  have htuned : m.source.registered = true ↔ 0 < m.subscriptionCount := h.tuned
  rw [htuned, h.count, h.tended.ticksLeft_pos, Nat.add_pos_iff_pos_or_pos]

theorem Hosted.isIdle_iff (h : m.Hosted others) : m.isIdle = true ↔ Bench.ticksLeft m = 0 := by
  have hpos := h.tended.ticksLeft_pos
  rw [isIdle, List.isEmpty_iff, ← List.length_eq_zero_iff, ← pendingJobs]
  omega

/-- **A tick gives back the subscription of a job that it completes, and no other.** -/
theorem Hosted.onTick (h : m.Hosted others) :
    (m.onTick (Bench.workshop prepare)).Hosted others := by
  refine ⟨h.tended.onTick, isTuned_perform (Bench.workshop prepare) h.tuned .tick, ?_⟩
  have hcount := h.count
  rcases h.tended.queue_cases with hq | ⟨id, j, hq, hj, -⟩
  · rwa [onTick_nil _ hq]
  · obtain ⟨hqueue, hsub, -, -⟩ := onTick_source prepare hq hj
    rw [pendingJobs, hq, List.length_singleton] at hcount
    rw [hsub, pendingJobs, hqueue, hcount]
    split
    · simp
    · simp

theorem Hosted.ticked (h : m.Hosted others) (n : Nat) :
    ((·.onTick (Bench.workshop prepare))^[n] m).Hosted others := by
  induction n with
  | zero => exact h
  | succ n ih =>
    rw [Function.iterate_succ_apply']
    exact ih.onTick

theorem Hosted.ticksLeft_ticked (h : m.Hosted others) (n : Nat) :
    Bench.ticksLeft ((·.onTick (Bench.workshop prepare))^[n] m) = Bench.ticksLeft m - n := by
  induction n with
  | zero => rfl
  | succ n ih =>
    rw [Function.iterate_succ_apply', (h.ticked n).tended.ticksLeft_onTick, ih, Nat.sub_sub]

theorem ticked_created (ws : Workshop Platform Bench) (m : Manager Platform Bench) (n : Nat) :
    ((·.onTick ws)^[n] m).created = m.created := by
  induction n with
  | zero => rfl
  | succ n ih => rw [Function.iterate_succ_apply', onTick_created, ih]

/-! ### How the loop ends -/

variable {α : Type} {watch : Bench → α}

/-- **Without subscriptions of others the loop makes one cycle for every tick that is left.** -/
theorem Hosted.returns (h : m.Hosted 0) :
    Returns (Bench.workshop prepare) watch m
      ((List.range (Bench.ticksLeft m)).map fun n =>
        watch ((·.onTick (Bench.workshop prepare))^[n + 1] m).world)
      ((·.onTick (Bench.workshop prepare))^[Bench.ticksLeft m] m) := by
  induction hleft : Bench.ticksLeft m generalizing m with
  | zero =>
    refine .idle (Bool.eq_false_iff.mpr fun hr => ?_)
    have hpos := h.registered_iff.mp hr
    omega
  | succ r ih =>
    have hnext : Bench.ticksLeft (m.onTick (Bench.workshop prepare)) = r := by
      rw [h.tended.ticksLeft_onTick, hleft, Nat.add_sub_cancel]
    have hr : m.source.registered = true := h.registered_iff.mpr (.inl (hleft ▸ Nat.succ_pos r))
    rw [List.range_succ_eq_map, List.map_cons, List.map_map]
    exact .cycle hr (ih h.onTick hnext)

theorem Hosted.runUntilIdle_eq (h : m.Hosted others) (hothers : 0 < others) (n : Nat) :
    m.runUntilIdle (Bench.workshop prepare) n = (n, (·.onTick (Bench.workshop prepare))^[n] m) := by
  induction n generalizing m with
  | zero => rfl
  | succ n ih => rw [runUntilIdle_cycle (h.registered_iff.mpr (.inr hothers)), ih h.onTick]; rfl

theorem Hosted.not_returns (h : m.Hosted others) (hothers : 0 < others) (seen : List α)
    (m' : Manager Platform Bench) : ¬ Returns (Bench.workshop prepare) watch m seen m' := by
  intro hreturns
  induction hreturns with
  | idle hidle =>
    have hregistered := h.registered_iff.mpr (.inr hothers)
    exact absurd (hidle.symm.trans hregistered) Bool.false_ne_true
  | cycle _ _ ih => exact ih h.onTick

theorem hosted_after (hp : ∀ b, (prepare b).jobs = b.jobs) (files : FileSystem)
    {ops : List (Operation Platform Bench)} (hops : ∀ op ∈ ops, op.IsOffline)
    (hcount : ((new (Bench.ofFiles files)).after (Bench.workshop prepare) ops).subscriptionCount =
      ((new (Bench.ofFiles files)).after (Bench.workshop prepare) ops).pendingJobs + others) :
    ((new (Bench.ofFiles files)).after (Bench.workshop prepare) ops).Hosted others :=
  ⟨tended_after hp files hops, isTuned_after _ _ ops, hcount⟩

/-- **The loop of the host returns when the job in the queue is complete, unless somebody else is
subscribed.**  This holds of the manager after any operations, if all platforms are offline ones and
preparing for a job makes none.  Let `r` be the ticks that the job in the queue still needs, whatever becomes
of the files, or zero if there is none.

* If there are no more subscriptions than jobs in the queue, the source is registered for `r` ticks.  So the
  loop makes `r` cycles and returns, whatever it watches.  Then the manager is idle, nobody is subscribed,
  and the job that was in the queue is complete.
* If there are more, the source is registered after any number of ticks.  So the loop does not return, not
  even once the queue is empty, which it is from `r` ticks on.
* There are more just if others have subscribed without undoing it, as long as the count of these never ran
  over 64 bits. -/
theorem loop_returns_unless_subscribed (prepare : Bench → Bench) (hp : ∀ b, (prepare b).jobs = b.jobs)
    (files : FileSystem) (ops : List (Operation Platform Bench)) (hops : ∀ op ∈ ops, op.IsOffline) :
    let ws := Bench.workshop prepare
    let m := (new (Bench.ofFiles files)).after ws ops
    let ticked := fun n => (·.onTick ws)^[n] m
    let r := Bench.ticksLeft m
    (m.queue = [] ∧ r = 0 ∨
      ∃ id j, m.queue = [id] ∧ m.world.jobs[id]? = some (.source j) ∧ j.isComplete = false ∧
        ∀ later, (j.after (m.world.files :: later)).isComplete = true ↔ r ≤ later.length + 1) ∧
    (m.subscriptionCount = m.pendingJobs →
      (∀ n, (ticked n).source.registered = true ↔ n < r) ∧
      (∀ limit, r ≤ limit → m.runUntilIdle ws limit = (r, ticked r)) ∧
      (∀ (α : Type) (watch : Bench → α) seen last, Returns ws watch m seen last ↔
        seen = (List.range r).map (fun n => watch (ticked (n + 1)).world) ∧ last = ticked r) ∧
      (ticked r).isIdle = true ∧ (ticked r).subscriptionCount = 0 ∧
      (ticked r).source.registered = false ∧
      ∀ id ∈ m.queue, ∃ s, (ticked r).world.state? id = some s ∧ s.complete = true) ∧
    (m.pendingJobs < m.subscriptionCount →
      (∀ n, (ticked n).source.registered = true) ∧
      (∀ n, m.runUntilIdle ws n = (n, ticked n)) ∧
      (∀ (α : Type) (watch : Bench → α) seen last, ¬ Returns ws watch m seen last) ∧
      ∀ n, (ticked n).isIdle = true ↔ r ≤ n) ∧
    ((∀ n, unmatched (ops.take n) < Limit.unsigned - 1) →
      m.external.val = unmatched ops ∧ m.subscriptionCount = m.pendingJobs + unmatched ops) := by
  intro ws m ticked r
  have htended : m.Tended := tended_after hp files hops
  refine ⟨?_, ?_, ?_, ?_⟩
  · rcases htended.queue_cases with hq | ⟨id, j, hq, hj, hinc⟩
    · exact Or.inl ⟨hq, ticksLeft_of_nil hq⟩
    · refine Or.inr ⟨id, j, hq, hj, hinc, fun later => ?_⟩
      rw [show r = j.ticksLeft m.world.files from ticksLeft_of_single hq hj]
      exact SourceJob.isComplete_after_iff j m.world.files later
  · intro hcount
    have h : m.Hosted 0 := hosted_after hp files hops hcount
    have hleft : ∀ n, Bench.ticksLeft (ticked n) = r - n := h.ticksLeft_ticked
    have hend : Bench.ticksLeft (ticked r) = 0 := by rw [hleft, Nat.sub_self]
    have hlast : (ticked r).Hosted 0 := h.ticked r
    have hidle : (ticked r).isIdle = true := hlast.isIdle_iff.mpr hend
    have hqueue : (ticked r).queue = [] := List.isEmpty_iff.mp hidle
    have hregistered : ∀ n, (ticked n).source.registered = true ↔ n < r := by
      intro n
      have hn : (ticked n).source.registered = true ↔ 0 < Bench.ticksLeft (ticked n) ∨ 0 < 0 :=
        (h.ticked n).registered_iff
      rw [hn, hleft n]
      omega
    refine ⟨hregistered, ?_, ?_, hidle, ?_, ?_, ?_⟩
    · intro limit hlimit
      have hreturns : Returns ws (fun _ => ()) m _ (ticked r) := h.returns
      have hrun := hreturns.runUntilIdle_eq (limit - r)
      rw [List.length_map, List.length_range] at hrun
      rwa [Nat.add_sub_cancel' hlimit] at hrun
    · intro α watch seen last
      constructor
      · intro hreturns
        exact hreturns.unique h.returns
      · rintro ⟨rfl, rfl⟩
        exact h.returns
    · rw [hlast.count, pendingJobs, hqueue]
      rfl
    · exact Bool.eq_false_iff.mpr fun hr => absurd ((hregistered r).mp hr) (Nat.lt_irrefl r)
    · intro id hid
      have hlt : id < (ticked r).created := by
        rw [ticked_created]
        exact htended.queued id hid
      exact hlast.tended.complete hlt (by rw [hqueue]; exact List.not_mem_nil)
  · intro hmore
    have hothers : 0 < m.subscriptionCount - m.pendingJobs := Nat.sub_pos_of_lt hmore
    have h : m.Hosted (m.subscriptionCount - m.pendingJobs) :=
      hosted_after hp files hops (Nat.add_sub_cancel' (Nat.le_of_lt hmore)).symm
    refine ⟨fun n => (h.ticked n).registered_iff.mpr (.inr hothers), h.runUntilIdle_eq hothers,
      fun α watch => h.not_returns hothers, ?_⟩
    intro n
    have hn : (ticked n).isIdle = true ↔ _ := (h.ticked n).isIdle_iff
    rw [hn, h.ticksLeft_ticked n, Nat.sub_eq_zero_iff_le]
  · intro hbound
    have hbalanced : m.Balanced (unmatched ops) := balanced_after ws _ ops hbound
    exact ⟨hbalanced.external, hbalanced.keeps.count⟩

/-- A shader of two lines. -/
def lamp : FileSystem :=
  ⟨[([Utf8.encode "Lit.shader"], .file (Utf8.encode "Pass\nPass"))], []⟩

/-- A job for the shader, which scans one line with each tick. -/
def lighting : List (Operation Platform Bench) :=
  [.register .offline (.offline ⟨.offline, [.buildReport], ⟨1, by decide⟩, ⟨[]⟩⟩),
    .submit ⟨.shader, .ofString "Lit.shader"⟩ .offline]

theorem isOffline_lighting : ∀ op ∈ lighting ++ [.subscribe], op.IsOffline := by
  intro op hop
  simp only [lighting, List.cons_append, List.nil_append, List.mem_cons, List.not_mem_nil,
    or_false] at hop
  rcases hop with rfl | rfl | rfl
  · exact .register _ _
  · exact .submit _ _
  · exact .subscribe

theorem readText_lamp : lamp.readText (.ofString "Lit.shader") = .ok "Pass\nPass" := by
  rw [FileSystem.readText_eq_ok_iff, FileSystem.read_eq_ok_iff]
  refine ⟨[Utf8.encode "Lit.shader"], ?_⟩
  rw [FileSystem.resolve_eq_ok_iff]
  exact ⟨⟨by decide, by decide, fun _ => by decide⟩,
    .file ⟨by decide, by decide, by decide, by decide⟩ rfl⟩

/-- The loop takes four cycles for the shader: one to read, one for each line, and one to write.  If somebody
else is subscribed, it goes on forever. -/
theorem loop_returns_unless_subscribed_lamp :
    let ws := Bench.workshop id
    let m := (new (Bench.ofFiles lamp)).after ws lighting
    let m' := (new (Bench.ofFiles lamp)).after ws (lighting ++ [.subscribe])
    (∀ limit, 4 ≤ limit → (m.runUntilIdle ws limit).1 = 4) ∧
      (∃ s, (m.runUntilIdle ws 4).2.world.state? 0 = some s ∧ s.complete = true) ∧
      ∀ n, (m'.runUntilIdle ws n).1 = n := by
  intro ws m m'
  have hoffline : ∀ op ∈ lighting, op.IsOffline := fun op hop =>
    isOffline_lighting op (List.mem_append_left _ hop)
  obtain ⟨-, hreturns, -, -⟩ :=
    loop_returns_unless_subscribed id (fun _ => rfl) lamp lighting hoffline
  obtain ⟨-, -, hforever, -⟩ :=
    loop_returns_unless_subscribed id (fun _ => rfl) lamp (lighting ++ [.subscribe]) isOffline_lighting
  have hjob : m.world.jobs[0]? = some (.source (.new ⟨.shader, .ofString "Lit.shader"⟩ .offline
      ⟨1, by decide⟩ ⟨[]⟩)) := rfl
  have hleft : Bench.ticksLeft m = 4 := by
    have hread : m.world.files.readText (.ofString "Lit.shader") = .ok "Pass\nPass" := readText_lamp
    rw [ticksLeft_of_single (m := m) rfl hjob, SourceJob.ticksLeft_new, hread]
    decide +kernel
  obtain ⟨-, hrun, -, -, -, -, hcomplete⟩ := hreturns rfl
  rw [hleft] at hrun hcomplete
  refine ⟨?_, ?_, ?_⟩
  · intro limit hlimit
    rw [hrun limit hlimit]
  · rw [hrun 4 (Nat.le_refl 4)]
    exact hcomplete 0 List.mem_cons_self
  · intro n
    obtain ⟨-, hbusy, -⟩ := hforever (by decide)
    rw [hbusy n]

end ShaderReport.Manager

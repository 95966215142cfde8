import Mathlib.Data.List.Infix
import ShaderReport.Proofs.Manager.Balance
import ShaderReport.Proofs.Manager.Calls

/-!
# One job at a time

A manager has at most one job in flight, and its jobs follow one another: a job is made once all the
jobs before it have said that they are complete, to a tick or to a sweep, and from then on none of these
is called any more.

* `Flight` is all that this is about: the queue, the number of jobs made, the calls and the handles that
  were handed out.  `Flight.Step` lists what one operation can do to it (`perform_step`).
* `InOrder` is the law about calls.  `Flight.Orderly` carries it along a run, with the queue: the jobs
  in it are those that have not said yet that they are complete (`Flight.Orderly.step`).
* If the jobs are honest (`IsHonest`), what a job said last is still so, and then every job that left the
  queue is complete (`Flight.Settled.step`).
-/

namespace ShaderReport

variable {F W : Type}

/-! ### The law -/

/-- Whether a job has said that it is complete. -/
def HasFinished (cs : List Call) (job : JobId) : Prop :=
  .ticked job true ∈ cs ∨ .asked job true ∈ cs

/-- Whether a call may come after other ones.  A job may be made once all those before it have said that
they are complete.  Only the newest job may be ticked or asked, and only until it says so. -/
def Call.MayFollow (before : List Call) : Call → Prop
  | .created job => ∀ k, .created k ∈ before → k < job ∧ HasFinished before k
  | .ticked job _ | .asked job _ =>
    .created job ∈ before ∧ ¬ HasFinished before job ∧ ∀ k, .created k ∈ before → k ≤ job

/-- Whether every call may come after those before it. -/
def InOrder (cs : List Call) : Prop :=
  ∀ before c after, cs = before ++ c :: after → c.MayFollow before

theorem InOrder.append {cs : List Call} {c : Call} (h : InOrder cs) (hc : c.MayFollow cs) :
    InOrder (cs ++ [c]) := by
  intro before d after heq
  rcases List.eq_nil_or_concat after with rfl | ⟨after, e, rfl⟩
  · obtain ⟨rfl, hd⟩ := List.append_inj' heq rfl
    cases hd
    exact hc
  · have heq' : cs ++ [c] = (before ++ d :: after) ++ [e] := by
      simpa using heq
    exact h before d after (List.append_inj' heq' rfl).1

theorem hasFinished_append {cs : List Call} {c : Call} {job : JobId} :
    HasFinished (cs ++ [c]) job ↔
      HasFinished cs job ∨ c = .ticked job true ∨ c = .asked job true := by
  simp only [HasFinished, List.mem_append, List.mem_singleton, eq_comm (b := c)]
  tauto

/-- What a job says by its last tick, or by the way it was made if it was not ticked. -/
def lastSaid (made : JobId → Bool) (cs : List Call) (job : JobId) : Bool :=
  cs.foldl (fun said c => match c with
    | .ticked k complete => if k = job then complete else said
    | _ => said) (made job)

section LastSaid

variable (made : JobId → Bool) (cs : List Call) (job k : JobId) (complete : Bool)

theorem lastSaid_ticked : lastSaid made (cs ++ [.ticked k complete]) job =
    if k = job then complete else lastSaid made cs job := by
  rw [lastSaid, List.foldl_append]
  rfl

theorem lastSaid_asked :
    lastSaid made (cs ++ [.asked k complete]) job = lastSaid made cs job := by
  rw [lastSaid, List.foldl_append]
  rfl

theorem lastSaid_created : lastSaid made (cs ++ [.created k]) job = lastSaid made cs job := by
  rw [lastSaid, List.foldl_append]
  rfl

end LastSaid

/-! ### What an operation does -/

/-- The queue of a manager, how many jobs it has made, what it has called them for, and the handles that
it has handed out. -/
structure Flight where
  queue : List JobId
  created : Nat
  calls : List Call
  handles : List JobId

namespace Flight

/-- What one operation can do.  `answers` is what the jobs answer when they are asked whether they are
complete. -/
inductive Step (answers : JobId → Bool) : Flight → Flight → Prop where
  | rest (f : Flight) : Step answers f f
  | tick (j : JobId) (complete : Bool) (n : Nat) (cs : List Call) (hs : List JobId) :
      Step answers ⟨[j], n, cs, hs⟩
        ⟨if complete then [] else [j], n, cs ++ [.ticked j complete], hs⟩
  | refuse (j : JobId) (n : Nat) (cs : List Call) (hs : List JobId) (ha : answers j = false) :
      Step answers ⟨[j], n, cs, hs⟩ ⟨[j], n, cs ++ [.asked j false], hs⟩
  | start (n : Nat) (cs : List Call) (hs : List JobId) :
      Step answers ⟨[], n, cs, hs⟩ ⟨[n], n + 1, cs ++ [.created n], hs ++ [n]⟩
  | replace (j : JobId) (n : Nat) (cs : List Call) (hs : List JobId) (ha : answers j = true) :
      Step answers ⟨[j], n, cs, hs⟩
        ⟨[n], n + 1, cs ++ [.asked j true] ++ [.created n], hs ++ [n]⟩

/-- The order of a flight: the calls are in order, and the queue holds the jobs that were made and have
not said yet that they are complete.  There is no such job but the newest one. -/
structure Orderly (f : Flight) : Prop where
  single : f.queue.length ≤ 1
  queue : ∀ j, j ∈ f.queue ↔ j < f.created ∧ ¬ HasFinished f.calls j
  newest : ∀ j ∈ f.queue, j + 1 = f.created
  created : ∀ j, .created j ∈ f.calls ↔ j < f.created
  known : ∀ c ∈ f.calls, c.job < f.created
  order : InOrder f.calls
  handles : f.handles = List.range f.created

theorem orderly_nil : Orderly ⟨[], 0, [], []⟩ where
  single := Nat.zero_le _
  queue := by simp
  newest := by simp
  created := by simp
  known := by simp
  order := by simp [InOrder]
  handles := rfl

section Orderly

variable {n : Nat} {cs : List Call} {hs : List JobId} {j : JobId} {c : Call}

theorem Orderly.mayFollow (h : Orderly ⟨[j], n, cs, hs⟩) :
    .created j ∈ cs ∧ ¬ HasFinished cs j ∧ ∀ k, .created k ∈ cs → k ≤ j := by
  obtain ⟨hj, hfin⟩ := (h.queue j).mp List.mem_cons_self
  refine ⟨(h.created j).mpr hj, hfin, ?_⟩
  intro k hk
  have hlt : k < n := (h.created k).mp hk
  have hnew : j + 1 = n := h.newest j List.mem_cons_self
  exact Nat.le_of_lt_succ (Nat.lt_of_lt_of_eq hlt hnew.symm)

theorem Orderly.order_append (h : Orderly ⟨[j], n, cs, hs⟩) {complete : Bool}
    (hc : c = .ticked j complete ∨ c = .asked j complete) : InOrder (cs ++ [c]) := by
  rcases hc with rfl | rfl <;> exact h.order.append h.mayFollow

theorem Orderly.created_append (h : Orderly ⟨[j], n, cs, hs⟩) {complete : Bool}
    (hc : c = .ticked j complete ∨ c = .asked j complete) (k : JobId) :
    .created k ∈ cs ++ [c] ↔ k < n := by
  rw [← h.created k]
  rcases hc with rfl | rfl <;> simp

theorem Orderly.known_append (h : Orderly ⟨[j], n, cs, hs⟩) {complete : Bool}
    (hc : c = .ticked j complete ∨ c = .asked j complete) : ∀ d ∈ cs ++ [c], d.job < n := by
  intro d hd
  rcases List.mem_append.mp hd with hd | hd
  · exact h.known d hd
  · obtain rfl := List.mem_singleton.mp hd
    have hj : d.job = j := by rcases hc with rfl | rfl <;> rfl
    rw [hj]
    exact ((h.queue j).mp List.mem_cons_self).1

theorem Orderly.keep (h : Orderly ⟨[j], n, cs, hs⟩) (hc : c = .ticked j false ∨ c = .asked j false) :
    Orderly ⟨[j], n, cs ++ [c], hs⟩ where
  single := h.single
  queue k := by
    have hfin : HasFinished (cs ++ [c]) k ↔ HasFinished cs k := by
      rw [hasFinished_append]
      rcases hc with rfl | rfl <;> simp
    rw [hfin]
    exact h.queue k
  newest := h.newest
  created := h.created_append hc
  known := h.known_append hc
  order := h.order_append hc
  handles := h.handles

theorem Orderly.leave (h : Orderly ⟨[j], n, cs, hs⟩) (hc : c = .ticked j true ∨ c = .asked j true) :
    Orderly ⟨[], n, cs ++ [c], hs⟩ where
  single := Nat.zero_le _
  queue k := by
    have hfin : HasFinished (cs ++ [c]) k ↔ HasFinished cs k ∨ k = j := by
      rw [hasFinished_append]
      rcases hc with rfl | rfl <;> simp [eq_comm]
    have hk := h.queue k
    rw [List.mem_singleton] at hk
    simp only [hfin, List.not_mem_nil, false_iff]
    tauto
  newest := by simp
  created := h.created_append hc
  known := h.known_append hc
  order := h.order_append hc
  handles := h.handles

theorem Orderly.start (h : Orderly ⟨[], n, cs, hs⟩) :
    Orderly ⟨[n], n + 1, cs ++ [.created n], hs ++ [n]⟩ where
  single := Nat.le_refl _
  queue k := by
    have hfin : HasFinished (cs ++ [.created n]) k ↔ HasFinished cs k := by
      rw [hasFinished_append]
      simp
    have hnew : ¬ HasFinished cs n := by
      rintro (hd | hd) <;> exact absurd (h.known _ hd) (Nat.lt_irrefl n)
    have hk := h.queue k
    rw [hfin, List.mem_singleton]
    simp only [List.not_mem_nil, false_iff] at hk
    constructor
    · rintro rfl
      exact ⟨Nat.lt_succ_self _, hnew⟩
    · rintro ⟨hlt, hnot⟩
      rcases Nat.lt_succ_iff_lt_or_eq.mp hlt with hlt | heq
      · exact absurd ⟨hlt, hnot⟩ hk
      · exact heq
  newest := by simp
  created k := by
    have hk := h.created k
    simp only at hk
    rw [List.mem_append, hk, List.mem_singleton, Call.created.injEq]
    exact Nat.lt_succ_iff_lt_or_eq.symm
  known d hd := by
    rcases List.mem_append.mp hd with hd | hd
    · exact Nat.lt_succ_of_lt (h.known d hd)
    · obtain rfl := List.mem_singleton.mp hd
      exact Nat.lt_succ_self n
  order := by
    refine h.order.append ?_
    intro k hk
    have hlt : k < n := (h.created k).mp hk
    refine ⟨hlt, ?_⟩
    by_contra hnot
    exact List.not_mem_nil ((h.queue k).mpr ⟨hlt, hnot⟩)
  handles := by
    have hhs : hs = List.range n := h.handles
    rw [hhs, List.range_succ]

/-- **Every operation keeps the order.** -/
theorem Orderly.step {answers : JobId → Bool} {f f' : Flight} (h : f.Orderly)
    (hs : Step answers f f') : f'.Orderly := by
  cases hs with
  | rest => exact h
  | tick j complete n cs hs =>
    cases complete with
    | false => exact h.keep (.inl rfl)
    | true => exact h.leave (.inl rfl)
  | refuse j n cs hs ha => exact h.keep (.inr rfl)
  | start n cs hs => exact h.start
  | replace j n cs hs ha => exact (h.leave (.inr rfl)).start

end Orderly

/-- If jobs that are asked repeat what they said last, then what a job says once it has finished stays
so. -/
def Settled (made : JobId → Bool) (f : Flight) : Prop :=
  ∀ j, HasFinished f.calls j → lastSaid made f.calls j = true

theorem Settled.step {made answers : JobId → Bool} {f f' : Flight} (h : f.Settled made)
    (ho : f.Orderly) (ha : ∀ j ∈ f.queue, answers j = lastSaid made f.calls j)
    (hs : Step answers f f') : f'.Settled made := by
  cases hs with
  | rest => exact h
  | tick j complete n cs hs =>
    intro k hk
    rw [lastSaid_ticked]
    rw [hasFinished_append] at hk
    split
    · next hjk =>
      -- The job was still queued, so it has finished only if it says so now.
      subst hjk
      have hnot : ¬ HasFinished cs j := ho.mayFollow.2.1
      simpa [hnot] using hk
    · next hjk =>
      have hcs : HasFinished cs k := by simpa [hjk] using hk
      exact h k hcs
  | refuse j n cs hs ha' =>
    intro k hk
    rw [lastSaid_asked]
    rw [hasFinished_append] at hk
    exact h k (by simpa using hk)
  | start n cs hs =>
    intro k hk
    rw [lastSaid_created]
    rw [hasFinished_append] at hk
    exact h k (by simpa using hk)
  | replace j n cs hs ha' =>
    intro k hk
    rw [lastSaid_created, lastSaid_asked]
    rw [hasFinished_append, hasFinished_append] at hk
    have hk' : HasFinished cs k ∨ j = k := by simpa using hk
    rcases hk' with hk' | rfl
    · exact h k hk'
    · exact (ha j List.mem_cons_self).symm.trans ha'

end Flight

/-! ### Runs -/

/-- The handle that an answer hands out. -/
def Answer.handle? : Answer → Option JobId
  | .submitted (.ok job) => job
  | _ => none

namespace Manager

/-- The handles that a run hands out, in order. -/
def handles (ws : Workshop F W) (w : W) (ops : List (Operation F W)) : List JobId :=
  ((new w).trace ws ops).filterMap (·.answer.handle?)

/-- The flight of a manager that made given calls and handed out given handles. -/
def flight (m : Manager F W) (cs : List Call) (hs : List JobId) : Flight :=
  ⟨m.queue, m.created, cs, hs⟩

variable (ws : Workshop F W)

theorem submit_idle {m : Manager F W} {target : BuildTarget} {factory : F}
    (hf : m.capableFactory ws target = some factory) (hq : (m.sweep ws).queue = []) (asset : Asset) :
    m.submit ws asset target = (some (m.sweep ws).created, (m.sweep ws).start ws factory asset) := by
  rw [submit, hf]
  exact if_pos (by rw [isIdle, hq]; rfl)

theorem submit_busy {m : Manager F W} {target : BuildTarget} {factory : F}
    (hf : m.capableFactory ws target = some factory) (hq : (m.sweep ws).queue ≠ []) (asset : Asset) :
    m.submit ws asset target = (none, (m.sweep ws).warn ws .alreadyRunning) := by
  rw [submit, hf]
  exact if_neg (by rw [isIdle, List.isEmpty_iff]; exact hq)

theorem withLog_submit_idle {m : Manager F W} {cs cs' : List Call} {target : BuildTarget} {factory : F}
    (hf : m.capableFactory ws target = some factory) (hq : (m.sweep ws).queue = [])
    (hs : (m.withLog cs).sweep ws.logged = (m.sweep ws).withLog cs') (asset : Asset) :
    (m.withLog cs).submit ws.logged asset target = ((m.submit ws asset target).1,
      (m.submit ws asset target).2.withLog (cs' ++ [.created (m.sweep ws).created])) := by
  rw [submit_idle ws hf hq, submit_idle ws.logged (m := m.withLog cs) hf (by rwa [hs]), hs,
    withLog_start]
  rfl

theorem withLog_submit_busy {m : Manager F W} {cs cs' : List Call} {target : BuildTarget} {factory : F}
    (hf : m.capableFactory ws target = some factory) (hq : (m.sweep ws).queue ≠ [])
    (hs : (m.withLog cs).sweep ws.logged = (m.sweep ws).withLog cs') (asset : Asset) :
    (m.withLog cs).submit ws.logged asset target =
      ((m.submit ws asset target).1, (m.submit ws asset target).2.withLog cs') := by
  rw [submit_busy ws hf hq, submit_busy ws.logged (m := m.withLog cs) hf (by rwa [hs]), hs]
  rfl

theorem submit_step {m : Manager F W} (hq : m.queue.length ≤ 1) (cs : List Call) (hs : List JobId)
    (asset : Asset) (target : BuildTarget) :
    ∃ cs', (m.withLog cs).submit ws.logged asset target =
        ((m.submit ws asset target).1, (m.submit ws asset target).2.withLog cs') ∧
      Flight.Step (fun j => (ws.isComplete j m.world).1) (m.flight cs hs)
        ((m.submit ws asset target).2.flight cs' (hs ++ (m.submit ws asset target).1.toList)) := by
  cases hf : m.capableFactory ws target with
  | none =>
    refine ⟨cs, ?_, ?_⟩
    · rw [submit, submit, hf, show (m.withLog cs).capableFactory ws.logged target = none from hf]
      rfl
    · rw [submit, hf, Option.toList_none, List.append_nil]
      exact .rest _
  | some factory =>
    cases hjs : m.queue with
    | nil =>
      have hsweep := sweep_nil ws hjs
      have hlog : (m.withLog cs).sweep ws.logged = (m.sweep ws).withLog cs := by
        rw [hsweep, sweep_nil ws.logged (m := m.withLog cs) hjs]
      have hnil : (m.sweep ws).queue = [] := by rwa [hsweep]
      refine ⟨_, withLog_submit_idle ws hf hnil hlog asset, ?_⟩
      rw [submit_idle ws hf hnil, hsweep, flight, flight, start_queue, start_created, hjs]
      exact .start m.created cs hs
    | cons j js =>
      rw [hjs, List.length_cons] at hq
      obtain rfl : js = [] := List.eq_nil_of_length_eq_zero (by omega)
      have hlog := withLog_sweep ws m cs hjs
      have hsweep := sweep_single ws hjs
      cases hc : (ws.isComplete j m.world).1 with
      | true =>
        rw [hc] at hlog
        rw [hc, if_pos rfl] at hsweep
        have hnil : (m.sweep ws).queue = [] := by rw [hsweep, release_queue]; rfl
        have hcreated : (m.sweep ws).created = m.created := by rw [hsweep, release_created]; rfl
        refine ⟨_, withLog_submit_idle ws hf hnil hlog asset, ?_⟩
        rw [submit_idle ws hf hnil, flight, flight, start_queue, start_created, hnil, hcreated, hjs]
        exact .replace j m.created cs hs hc
      | false =>
        rw [hc] at hlog
        rw [hc, if_neg (by simp)] at hsweep
        have hqueue : (m.sweep ws).queue = [j] := by rw [hsweep]; exact hjs
        have hcreated : (m.sweep ws).created = m.created := by rw [hsweep]
        have hsome : (m.sweep ws).queue ≠ [] := by simp [hqueue]
        refine ⟨_, withLog_submit_busy ws hf hsome hlog asset, ?_⟩
        rw [submit_busy ws hf hsome, Option.toList_none, List.append_nil, flight, flight, hjs,
          show ((m.sweep ws).warn ws .alreadyRunning).queue = [j] from hqueue,
          show ((m.sweep ws).warn ws .alreadyRunning).created = m.created from hcreated]
        exact .refuse j m.created cs hs hc

theorem onTick_step {m : Manager F W} (hq : m.queue.length ≤ 1) (cs : List Call) (hs : List JobId)
    (answers : JobId → Bool) :
    ∃ cs', (m.withLog cs).onTick ws.logged = (m.onTick ws).withLog cs' ∧
      Flight.Step answers (m.flight cs hs) ((m.onTick ws).flight cs' hs) := by
  refine ⟨_, withLog_onTick ws m cs, ?_⟩
  cases hjs : m.queue with
  | nil =>
    rw [onTick_nil ws hjs, List.head?_nil, Option.toList_none, List.map_nil, List.append_nil]
    exact .rest _
  | cons j js =>
    rw [hjs, List.length_cons] at hq
    obtain rfl : js = [] := List.eq_nil_of_length_eq_zero (by omega)
    have hstep : (m.onTick ws).queue = (if (ws.tick j m.world).1 then [] else [j]) ∧
        (m.onTick ws).created = m.created := by
      rw [onTick_cons ws hjs]
      by_cases hc : (ws.tick j m.world).1 = true
      · rw [if_pos hc, if_pos hc, release_queue, release_created]
        exact ⟨rfl, rfl⟩
      · rw [if_neg hc, if_neg hc]
        exact ⟨hjs, rfl⟩
    rw [flight, flight, hstep.1, hstep.2, hjs]
    exact .tick j _ m.created cs hs

/-- **What an operation does to the flight of a manager**, and that the log changes nothing else. -/
theorem perform_step {m : Manager F W} (hq : m.queue.length ≤ 1) (cs : List Call) (hs : List JobId)
    (op : Operation F W) :
    ∃ cs', (m.withLog cs).perform ws.logged op.logged =
        ((m.perform ws op).1, (m.perform ws op).2.withLog cs') ∧
      Flight.Step (fun j => (ws.isComplete j m.world).1) (m.flight cs hs)
        ((m.perform ws op).2.flight cs' (hs ++ (m.perform ws op).1.handle?.toList)) := by
  -- An operation that hands out no handle leaves the handles as they are.
  have hnone : hs ++ (none : Option JobId).toList = hs := List.append_nil hs
  cases op with
  | register target factory => exact ⟨cs, rfl, hnone.symm ▸ .rest _⟩
  | submit asset target =>
    obtain ⟨cs', hlog, hstep⟩ := submit_step ws hq cs hs asset target
    exact ⟨cs', by simp only [perform, Operation.logged, hlog], hstep⟩
  | submitPath path target =>
    simp only [perform, Operation.logged, submitPath]
    cases ha : Asset.ofPath path with
    | error e => exact ⟨cs, rfl, hnone.symm ▸ .rest _⟩
    | ok asset =>
      obtain ⟨cs', hlog, hstep⟩ := submit_step ws hq cs hs asset target
      exact ⟨cs', by simp only [hlog], hstep⟩
  | tick =>
    obtain ⟨cs', hlog, hstep⟩ := onTick_step ws hq cs hs fun j => (ws.isComplete j m.world).1
    exact ⟨cs', by simp only [perform, Operation.logged, hlog], hnone.symm ▸ hstep⟩
  | subscribe =>
    refine ⟨cs, by simp only [perform, Operation.logged, withLog_subscribe], ?_⟩
    simp only [perform, flight, subscribe_queue, subscribe_created]
    exact hnone.symm ▸ .rest _
  | unsubscribe =>
    refine ⟨cs, by simp only [perform, Operation.logged, withLog_unsubscribe], ?_⟩
    simp only [perform, flight, unsubscribe_queue, unsubscribe_created]
    exact hnone.symm ▸ .rest _
  | disturb change => exact ⟨cs, rfl, hnone.symm ▸ .rest _⟩

/-! ### Whole runs -/

/-- The flight at the end of a run. -/
def flightAfter (w : W) (ops : List (Operation F W)) : Flight :=
  ((new w).after ws ops).flight (calls ws w ops) (handles ws w ops)

theorem handles_append (w : W) (ops : List (Operation F W)) (op : Operation F W) :
    handles ws w (ops ++ [op]) =
      handles ws w ops ++ (((new w).after ws ops).perform ws op).1.handle?.toList := by
  rw [handles, handles, trace_append, List.filterMap_append, List.filterMap_cons, List.filterMap_nil,
    performed]
  cases (((new w : Manager F W).after ws ops).perform ws op).1.handle? <;> rfl

/-- Whether the log changes nothing of a run. -/
def Transparent (w : W) (ops : List (Operation F W)) : Prop :=
  (new (w, [])).after ws.logged (ops.map .logged) =
    ((new w).after ws ops).withLog (calls ws w ops)

theorem Transparent.step {w : W} {ops : List (Operation F W)} (h : Transparent ws w ops)
    (ho : (flightAfter ws w ops).Orderly) (op : Operation F W) :
    Transparent ws w (ops ++ [op]) ∧
      Flight.Step (fun j => (ws.isComplete j ((new w).after ws ops).world).1) (flightAfter ws w ops)
        (flightAfter ws w (ops ++ [op])) := by
  obtain ⟨cs, hlog, hstep⟩ :=
    perform_step ws (m := (new w).after ws ops) ho.single (calls ws w ops) (handles ws w ops) op
  have hafter : (new (w, [])).after ws.logged ((ops ++ [op]).map .logged) =
      ((new w).after ws (ops ++ [op])).withLog cs := by
    rw [List.map_append, List.map_singleton, after_append, after_append, h, hlog]
  have hcalls : calls ws w (ops ++ [op]) = cs := by rw [calls, hafter, withLog_world]
  refine ⟨by rw [Transparent, hafter, hcalls], ?_⟩
  rw [flightAfter, flightAfter, hcalls, handles_append, after_append]
  exact hstep

/-- **Every run is in order.** -/
theorem orderly_after (w : W) (ops : List (Operation F W)) :
    Transparent ws w ops ∧ (flightAfter ws w ops).Orderly := by
  induction ops using List.reverseRecOn with
  | nil => exact ⟨rfl, Flight.orderly_nil⟩
  | append_singleton ops op ih =>
    obtain ⟨hlog, hstep⟩ := ih.1.step ws ih.2 op
    exact ⟨hlog, ih.2.step hstep⟩

theorem mem_handles (w : W) (ops : List (Operation F W)) (j : JobId) :
    j ∈ handles ws w ops ↔ j < ((new w).after ws ops).created := by
  have hhs : handles ws w ops = List.range ((new w).after ws ops).created :=
    (orderly_after ws w ops).2.handles
  rw [hhs, List.mem_range]

theorem calls_tick (w : W) (ops : List (Operation F W)) :
    calls ws w (ops ++ [.tick]) = calls ws w ops ++
      ((new w).after ws ops).queue.map fun j =>
        .ticked j (ws.tick j ((new w).after ws ops).world).1 := by
  obtain ⟨hlog, ho⟩ := orderly_after ws w ops
  have hsingle := ho.single
  have hhead : ((new w).after ws ops).queue.head?.toList = ((new w).after ws ops).queue := by
    rcases queue_cases hsingle with hq | ⟨j, hq⟩
    · rw [hq]
      rfl
    · rw [hq]
      rfl
  rw [calls, List.map_append, List.map_singleton, after_append, hlog]
  simp only [perform, Operation.logged, withLog_onTick, withLog_world, hhead]

/-! ### Honest jobs -/

/-- Whether the jobs of a run are honest: between the operations a job is complete just when its last
tick said so.  `made` tells which jobs are complete before their first tick. -/
def IsHonest (w : W) (ops : List (Operation F W)) (made : JobId → Bool) : Prop :=
  ∀ before, before <+: ops → ∀ j ∈ handles ws w before,
    (ws.isComplete j ((new w).after ws before).world).1 = lastSaid made (calls ws w before) j

theorem IsHonest.settled {w : W} {ops : List (Operation F W)} {made : JobId → Bool}
    (h : IsHonest ws w ops made) : (flightAfter ws w ops).Settled made := by
  induction ops using List.reverseRecOn with
  | nil => exact fun j hj => by rcases hj with hj | hj <;> cases hj
  | append_singleton ops op ih =>
    obtain ⟨hlog, ho⟩ := orderly_after ws w ops
    have hops : IsHonest ws w ops made := fun before hb =>
      h before (hb.trans (List.prefix_append ops [op]))
    refine (ih hops).step ho ?_ (hlog.step ws ho op).2
    intro j hj
    exact h ops (List.prefix_append ops [op]) j
      ((mem_handles ws w ops j).mpr ((ho.queue j).mp hj).1)

/-- **A manager has one job at a time.**  The log of calls changes nothing of a run, and after every run:

* a tick calls the queued job once, if there is one, and no other;
* the calls are in order: a job is ticked only while it is the newest one and has not said that it is
  complete, to a tick or to a sweep, and a job is made only when all the jobs before it have said so;
* the queue holds at most one job, and just those that were handed out and have not said so;
* if the jobs are honest, those that left the queue are complete, and those that are not complete are
  still in it, so all of them are complete when the manager is idle. -/
theorem single_flight (w : W) (ops : List (Operation F W)) :
    let m := (new w).after ws ops
    let cs := calls ws w ops
    Transparent ws w ops ∧
      calls ws w (ops ++ [.tick]) =
        cs ++ m.queue.map (fun j => .ticked j (ws.tick j m.world).1) ∧
      InOrder cs ∧
      m.pendingJobs ≤ 1 ∧ (∀ j, j ∈ m.queue ↔ j ∈ handles ws w ops ∧ ¬ HasFinished cs j) ∧
      ∀ made, IsHonest ws w ops made →
        (∀ j ∈ handles ws w ops, j ∉ m.queue → (ws.isComplete j m.world).1 = true) ∧
          (∀ j ∈ handles ws w ops, (ws.isComplete j m.world).1 = false → j ∈ m.queue) ∧
          (m.isIdle = true → ∀ j ∈ handles ws w ops, (ws.isComplete j m.world).1 = true) := by
  intro m cs
  obtain ⟨hlog, ho⟩ := orderly_after ws w ops
  have hqueue : ∀ j, j ∈ m.queue ↔ j ∈ handles ws w ops ∧ ¬ HasFinished cs j := by
    intro j
    rw [mem_handles]
    exact ho.queue j
  refine ⟨hlog, calls_tick ws w ops, ho.order, ho.single, hqueue, ?_⟩
  intro made hhonest
  have hleft : ∀ j ∈ handles ws w ops, j ∉ m.queue → (ws.isComplete j m.world).1 = true := by
    intro j hj hnot
    have hfin : HasFinished cs j := by
      by_contra hfin
      exact hnot ((hqueue j).mpr ⟨hj, hfin⟩)
    exact (hhonest ops (List.prefix_refl ops) j hj).trans (hhonest.settled ws j hfin)
  refine ⟨hleft, ?_, ?_⟩
  · intro j hj hno
    by_contra hnot
    rw [hleft j hj hnot] at hno
    cases hno
  · intro hidle j hj
    refine hleft j hj ?_
    rw [List.isEmpty_iff.mp hidle]
    exact List.not_mem_nil

/-- Jobs that take a number of ticks, which is up to the platform.  A job of no ticks is complete from
the start. -/
def candles : Workshop Nat (List Nat) where
  isCapable _ _ := true
  prepare := id
  createShaderJob ticks _ _ w := w ++ [ticks]
  createComputeShaderJob ticks _ _ w := w ++ [ticks]
  createMaterialJob ticks _ _ w := w ++ [ticks]
  tick job w := ((w.getD job 0 - 1 == 0), w.set job (w.getD job 0 - 1))
  isComplete job w := (w.getD job 0 == 0, w)
  warn _ := id
  log _ := id

/-- A job that is complete from the start and is swept, and another one that is submitted too early once
and takes two ticks. -/
def burning : List (Operation Nat (List Nat)) :=
  let asset : Asset := ⟨.shader, .ofString "Lit.shader"⟩
  [.register .offline 0, .submit asset .offline, .register .offline 2, .submit asset .offline,
    .submit asset .offline, .tick, .tick, .tick]

theorem single_flight_candles :
    IsHonest candles [] burning (· == 0) ∧ handles candles [] burning = [0, 1] ∧
      calls candles [] burning = [.created 0, .asked 0 true, .created 1, .asked 1 false,
        .ticked 1 false, .ticked 1 true] ∧
      InOrder (calls candles [] burning) ∧
      ∀ j ∈ handles candles [] burning,
        (candles.isComplete j ((new []).after candles burning).world).1 = true := by
  have hhonest : IsHonest candles [] burning (· == 0) := by
    intro before hb
    have hall : ∀ before ∈ burning.inits, ∀ j ∈ handles candles [] before,
        (candles.isComplete j ((new []).after candles before).world).1 =
          lastSaid (· == 0) (calls candles [] before) j := by decide
    exact hall before ((List.mem_inits _ _).mpr hb)
  obtain ⟨-, -, horder, -, -, honest⟩ := single_flight candles [] burning
  exact ⟨hhonest, by decide, by decide, horder, (honest (· == 0) hhonest).2.2 (by decide)⟩

end Manager

end ShaderReport

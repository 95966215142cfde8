import ShaderReport.Proofs.Manager.Clients
import ShaderReport.Proofs.Manager.Flight
import ShaderReport.Proofs.Report.Name

/-!
# What becomes of a submission

A report is asked for by an asset, or by a path that may lead to none (`Request`).  There are four ways
for this to go, and `submission_decided` tells in which case each is taken and all that it does:

* what is no asset is an error, and changes nothing;
* a target whose factory is missing or not capable is warned of;
* a job that is still running is asked whether it is complete, and then warned of;
* in all other cases the job that is complete, if there is one, leaves, and the factory that was
  registered last for the target creates a new one.

Which factory this is can be told from the operations alone (`lastRegistered`, `lookup_after`).  The
subscriptions are followed in every manager there can be, those included whose count ran over 64 bits
(`release_eq`, `isTuned_after`).
-/

namespace ShaderReport

variable {F W : Type}

/-- What a report is asked for: an asset, or what stands at a path. -/
inductive Request where
  | asset (asset : Asset)
  | path (path : Path)
  deriving DecidableEq, Repr

namespace Request

/-- The asset of a request, if it is one. -/
def asset? : Request → Except InvalidAsset Asset
  | .asset a => .ok a
  | .path p => Asset.ofPath p

/-- The submission of a request. -/
def submission (r : Request) (target : BuildTarget) : Operation F W :=
  match r with
  | .asset a => .submit a target
  | .path p => .submitPath p target

end Request

/-- The factory that was registered last for a target. -/
def lastRegistered (ops : List (Operation F W)) (target : BuildTarget) : Option F :=
  ops.foldl (fun last op => match op with
    | .register t factory => if t = target then some factory else last
    | _ => last) none

namespace Manager

/-! ### The factory of a target -/

section Factories

variable (ws : Workshop F W)

theorem sweep_fixed (m : Manager F W) :
    (m.sweep ws).factories = m.factories ∧ (m.sweep ws).external = m.external := by
  have hall : ∀ (js : List JobId) (m : Manager F W),
      let m' := js.foldl (fun m j => (m.record (.swept j)).release ws) m
      m'.factories = m.factories ∧ m'.external = m.external := by
    intro js
    induction js with
    | nil =>
      intro m
      exact ⟨rfl, rfl⟩
    | cons j js ih =>
      intro m
      obtain ⟨hf, he⟩ := ih ((m.record (.swept j)).release ws)
      rw [release_factories] at hf
      rw [release_external] at he
      exact ⟨hf, he⟩
  exact hall _ _

theorem submit_factories (m : Manager F W) (asset : Asset) (target : BuildTarget) :
    (m.submit ws asset target).2.factories = m.factories := by
  rw [submit]
  split
  · rfl
  · simp only
    split
    · rw [start_factories, (sweep_fixed ws m).1]
    · exact (sweep_fixed ws m).1

theorem onTick_factories (m : Manager F W) : (m.onTick ws).factories = m.factories := by
  cases hq : m.queue with
  | nil => rw [onTick_nil ws hq]
  | cons j js =>
    rw [onTick_cons ws hq]
    split
    · rw [release_factories]
      rfl
    · rfl

theorem lookup_perform (m : Manager F W) (op : Operation F W) (target : BuildTarget) :
    (m.perform ws op).2.factories.lookup target =
      match op with
      | .register t factory => if t = target then some factory else m.factories.lookup target
      | _ => m.factories.lookup target := by
  cases op with
  | register t factory =>
    simp only [perform, register, List.lookup_cons]
    by_cases ht : t = target
    · rw [if_pos ht, ht, beq_self_eq_true]
    · rw [if_neg ht, beq_false_of_ne (Ne.symm ht)]
  | submit asset t => simp only [perform, submit_factories]
  | submitPath path t =>
    simp only [perform, submitPath]
    cases Asset.ofPath path with
    | error e => rfl
    | ok asset => simp only [submit_factories]
  | tick => simp only [perform, onTick_factories]
  | subscribe => simp only [perform, subscribe_factories]
  | unsubscribe => simp only [perform, unsubscribe_factories]
  | disturb change => rfl

/-- **The factory of a target is the one that was registered last for it.** -/
theorem lookup_after (w : W) (ops : List (Operation F W)) (target : BuildTarget) :
    ((new w).after ws ops).factories.lookup target = lastRegistered ops target := by
  induction ops using List.reverseRecOn with
  | nil => rfl
  | append_singleton ops op ih =>
    have hlast : lastRegistered (ops ++ [op]) target = match op with
        | .register t factory => if t = target then some factory else lastRegistered ops target
        | _ => lastRegistered ops target := by
      rw [lastRegistered, List.foldl_append]
      rfl
    rw [after_append, lookup_perform, ih, hlast]

end Factories

/-! ### The subscription of a job

A count that once ran over 64 bits has lost subscriptions, so a job may find none left when it gives back
its own.  What follows holds for such a manager as well. -/

section Subscriptions

variable (ws : Workshop F W)

/-- What a manager did to the outside, newest first, but for the signals to its source. -/
def deeds (m : Manager F W) : List Event :=
  m.history.filter (!·.isSignal)

theorem tell_subscription (m : Manager F W) (s : Option Signal) :
    (m.tell s).subscription = m.subscription := by
  cases s <;> rfl

theorem tell_deeds (m : Manager F W) (s : Option Signal) : (m.tell s).deeds = m.deeds := by
  cases s <;> rfl

theorem hold_count (m : Manager F W) :
    m.hold.subscriptionCount = min (m.subscriptionCount + 1) (Limit.unsigned - 1) := by
  rw [subscriptionCount, hold, tell_subscription]
  exact Count.val_succ _

theorem start_deeds (m : Manager F W) (factory : F) (asset : Asset) :
    (m.start ws factory asset).deeds = .created m.created asset :: .prepared :: m.deeds :=
  tell_deeds _ _

theorem start_count (m : Manager F W) (factory : F) (asset : Asset) :
    (m.start ws factory asset).subscriptionCount =
      min (m.subscriptionCount + 1) (Limit.unsigned - 1) :=
  hold_count _

/-- What is logged of a job that gives back a subscription where none is left. -/
def lossRecord : LogRecord :=
  ⟨.warning, UnbalancedUnsubscribe.unmatched.message⟩

/-- What a release leaves: one subscription less, and a log record if there was none. -/
theorem release_eq (m : Manager F W) :
    (m.release ws).subscriptionCount = m.subscriptionCount - 1 ∧
      (m.release ws).world = (if m.subscriptionCount = 0 then
        ws.log lossRecord m.world else m.world) ∧
      (m.release ws).deeds =
        (if m.subscriptionCount = 0 then [.logged lossRecord] else []) ++ m.deeds := by
  rcases m.subscription.unsubscribe_cases with ⟨hzero, hu⟩ | ⟨c, hc, hu⟩
  · have hcount : m.subscriptionCount = 0 := hzero
    rw [if_pos hcount, if_pos hcount, hcount, release, hu]
    exact ⟨hzero, rfl, rfl⟩
  · have hcount : m.subscriptionCount = c.val + 1 := hc.symm
    have hne : m.subscriptionCount ≠ 0 := hcount ▸ Nat.succ_ne_zero _
    rw [if_neg hne, if_neg hne, hcount, release, hu]
    refine ⟨?_, tell_world _ _, tell_deeds _ _⟩
    rw [subscriptionCount, tell_subscription]
    rfl

/-- Whether the source is registered just as long as there are subscriptions. -/
def IsTuned (m : Manager F W) : Prop :=
  m.source.registered = true ↔ 0 < m.subscriptionCount

variable {m : Manager F W}

theorem isTuned_hold (h : m.IsTuned) : m.hold.IsTuned := by
  have hpos : 0 < m.hold.subscriptionCount := by
    rw [hold_count]
    exact Nat.lt_min.mpr ⟨Nat.succ_pos _, by decide⟩
  refine ⟨fun _ => hpos, fun _ => ?_⟩
  by_cases hzero : m.subscription.count.val = 0
  · simp only [hold, Subscription.subscribe, hzero, if_true]
    rfl
  · simp only [hold, Subscription.subscribe, hzero, if_false]
    exact h.mpr (Nat.pos_of_ne_zero hzero)

theorem isTuned_tell {c : Count} (h : m.IsTuned) (hc : c.val + 1 = m.subscriptionCount) :
    ({ m with subscription := ⟨c⟩ }.tell
      (if c.val = 0 then some .unregister else none)).IsTuned := by
  by_cases hzero : c.val = 0
  · rw [if_pos hzero]
    exact ⟨nofun, fun hpos => absurd hzero (Nat.ne_of_gt hpos)⟩
  · rw [if_neg hzero]
    exact ⟨fun _ => Nat.pos_of_ne_zero hzero, fun _ => h.mpr (hc ▸ Nat.succ_pos _)⟩

theorem isTuned_release (h : m.IsTuned) : (m.release ws).IsTuned := by
  rw [release]
  rcases m.subscription.unsubscribe_cases with ⟨-, hu⟩ | ⟨c, hc, hu⟩
  · rw [hu]
    exact h
  · rw [hu]
    exact isTuned_tell h hc

theorem isTuned_unsubscribe (h : m.IsTuned) : m.unsubscribe.2.IsTuned := by
  rw [unsubscribe]
  cases m.external.pred? with
  | none => exact h
  | some external =>
    rcases m.subscription.unsubscribe_cases with ⟨-, hu⟩ | ⟨c, hc, hu⟩
    · simp only [hu]
      exact h
    · simp only [hu]
      exact isTuned_tell (m := { m with external := external }) h hc

theorem isTuned_sweep (h : m.IsTuned) : (m.sweep ws).IsTuned := by
  have hall : ∀ (js : List JobId) (m : Manager F W), m.IsTuned →
      (js.foldl (fun m j => (m.record (.swept j)).release ws) m).IsTuned := by
    intro js
    induction js with
    | nil =>
      intro m h
      exact h
    | cons j js ih =>
      intro m h
      exact ih _ (isTuned_release ws (m := m.record (.swept j)) h)
  exact hall _ _ h

theorem isTuned_submit (h : m.IsTuned) (asset : Asset) (target : BuildTarget) :
    (m.submit ws asset target).2.IsTuned := by
  rw [submit]
  split
  · exact h
  · simp only
    split
    · exact isTuned_hold (isTuned_sweep ws h)
    · exact isTuned_sweep ws h

theorem isTuned_perform (h : m.IsTuned) (op : Operation F W) : (m.perform ws op).2.IsTuned := by
  cases op with
  | register t factory => exact h
  | submit asset t => exact isTuned_submit ws h asset t
  | submitPath path t =>
    simp only [perform, submitPath]
    cases Asset.ofPath path with
    | error e => exact h
    | ok asset => exact isTuned_submit ws h asset t
  | tick =>
    cases hq : m.queue with
    | nil => simpa only [perform, onTick_nil ws hq] using h
    | cons j js =>
      simp only [perform, onTick_cons ws hq]
      split
      · exact isTuned_release ws h
      · exact h
  | subscribe => exact isTuned_hold h
  | unsubscribe => exact isTuned_unsubscribe h
  | disturb change => exact h

/-- **The source is registered just as long as there are subscriptions**, whatever the count ran over. -/
theorem isTuned_after (w : W) (ops : List (Operation F W)) : ((new w).after ws ops).IsTuned := by
  induction ops using List.reverseRecOn with
  | nil => exact ⟨nofun, nofun⟩
  | append_singleton ops op ih =>
    rw [after_append]
    exact isTuned_perform ws ih op

end Subscriptions

/-! ### The ways it can go -/

/-- A new job on the queue, which was created in a given world once that was prepared, by the one
constructor of the factory that goes with the kind of the asset. -/
structure Starts (ws : Workshop F W) (m : Manager F W) (w : W) (factory : F) (asset : Asset)
    (m' : Manager F W) : Prop where
  queue : m'.queue = [m.created]
  created : m'.created = m.created + 1
  factories : m'.factories = m.factories
  external : m'.external = m.external
  shader : asset.kind = .shader →
    m'.world = ws.createShaderJob factory m.created asset.path (ws.prepare w)
  computeShader : asset.kind = .computeShader →
    m'.world = ws.createComputeShaderJob factory m.created asset.path (ws.prepare w)
  material : asset.kind = .material →
    m'.world = ws.createMaterialJob factory m.created asset.path (ws.prepare w)

variable {ws : Workshop F W} {m : Manager F W}

theorem perform_submission (r : Request) (target : BuildTarget) :
    m.perform ws (r.submission target) =
      match r.asset? with
      | .error e => (.submitted (.error e), m)
      | .ok asset =>
        (.submitted (.ok (m.submit ws asset target).1), (m.submit ws asset target).2) := by
  cases r with
  | asset asset => rfl
  | path path =>
    simp only [Request.submission, Request.asset?, perform, submitPath]
    cases Asset.ofPath path <;> rfl

theorem sweep_complete (hq : m.queue.length ≤ 1)
    (hc : ∀ j ∈ m.queue, (ws.isComplete j m.world).1 = true) :
    let lost := m.subscriptionCount < m.queue.length
    let asked := m.queue.foldl (fun w j => (ws.isComplete j w).2) m.world
    (m.sweep ws).queue = [] ∧ (m.sweep ws).created = m.created ∧
      (m.sweep ws).subscriptionCount = m.subscriptionCount - m.queue.length ∧
      (m.sweep ws).world = (if lost then ws.log lossRecord asked else asked) ∧
      (m.sweep ws).deeds = (if lost then [.logged lossRecord] else []) ++
        (m.queue.map .swept ++ m.deeds) := by
  cases hjs : m.queue with
  | nil =>
    intro lost asked
    have hkept : ¬ lost := Nat.not_lt_zero _
    rw [sweep_nil ws hjs, if_neg hkept, if_neg hkept]
    exact ⟨hjs, rfl, rfl, rfl, rfl⟩
  | cons j js =>
    rw [hjs, List.length_cons] at hq
    obtain rfl : js = [] := List.eq_nil_of_length_eq_zero (by omega)
    have hj : (ws.isComplete j m.world).1 = true := hc j (hjs ▸ List.mem_cons_self)
    have hlost : (m.subscriptionCount < [j].length) = (m.subscriptionCount = 0) :=
      propext Nat.lt_one_iff
    obtain ⟨hcount, hworld, hdeeds⟩ := release_eq ws
      ({ m with queue := [], world := (ws.isComplete j m.world).2 }.record (.swept j))
    rw [sweep_single ws hjs, if_pos hj, release_queue, release_created]
    simp only [hlost]
    exact ⟨rfl, rfl, hcount, hworld, hdeeds⟩

theorem sweep_incomplete {j : JobId} (hq : m.queue = [j])
    (hc : (ws.isComplete j m.world).1 = false) :
    m.sweep ws = { m with world := (ws.isComplete j m.world).2 } := by
  rw [sweep_single ws hq, hc, if_neg Bool.false_ne_true]

/-- A submission that is not refused starts a job once the complete one is swept. -/
theorem submit_starts {target : BuildTarget} {factory : F}
    (hf : m.capableFactory ws target = some factory) (hq : m.queue.length ≤ 1)
    (hc : ∀ j ∈ m.queue, (ws.isComplete j m.world).1 = true) (asset : Asset) :
    let lost := m.subscriptionCount < m.queue.length
    let asked := m.queue.foldl (fun w j => (ws.isComplete j w).2) m.world
    let m' := (m.submit ws asset target).2
    (m.submit ws asset target).1 = some m.created ∧
      m.Starts ws (if lost then ws.log lossRecord asked else asked) factory asset m' ∧
      m'.deeds = .created m.created asset :: .prepared ::
        ((if lost then [.logged lossRecord] else []) ++ (m.queue.map .swept ++ m.deeds)) ∧
      m'.subscriptionCount =
        min (m.subscriptionCount - m.queue.length + 1) (Limit.unsigned - 1) := by
  obtain ⟨hnil, hcreated, hcount, hworld, hdeeds⟩ := sweep_complete hq hc
  obtain ⟨hfactories, hexternal⟩ := sweep_fixed ws m
  have hsubmit := submit_idle ws hf hnil asset
  rw [hcreated] at hsubmit
  intro lost asked m'
  have hm' : m' = (m.sweep ws).start ws factory asset := congrArg Prod.snd hsubmit
  rw [hm']
  refine ⟨congrArg Prod.fst hsubmit, ?_, ?_, ?_⟩
  · have hworld' := start_world (m.sweep ws) ws factory asset
    rw [hcreated, hworld] at hworld'
    constructor
    · rw [start_queue, hnil, hcreated, List.nil_append]
    · rw [start_created, hcreated]
    · rw [start_factories, hfactories]
    · rw [start_external, hexternal]
    · intro hkind
      rw [hworld', Workshop.createJob, hkind]
    · intro hkind
      rw [hworld', Workshop.createJob, hkind]
    · intro hkind
      rw [hworld', Workshop.createJob, hkind]
  · rw [start_deeds, hcreated, hdeeds]
  · rw [start_count, hcount]

/-- As long as the count never ran over, no job lost its subscription. -/
theorem Balanced.not_lost {n : Nat} (hb : m.Balanced n) :
    ¬ m.subscriptionCount < m.queue.length := by
  have hcount : m.subscriptionCount = m.queue.length + n := hb.keeps.count
  omega

/-- **A submission goes one of four ways, and changes nothing but what its way says.**  At most one job
is queued at that time, and the factory in question is the one that was registered last for the target.

* What is no asset is an error, and the manager stays as it is.
* If there is no such factory or it is not capable, one warning says so.
* If the queued job is not complete, one warning says so.
* Otherwise the queued job leaves the queue with its subscription, and the new one, which holds another,
  is all there is in it.  It was created from the path of the asset by that factory, by its constructor
  for assets of that kind, after the environment was prepared.  Nothing else is done to the outside,
  unless the count of subscriptions once ran over 64 bits: then there may be none left to give back, and
  that is logged. -/
theorem submission_decided (ws : Workshop F W) (w : W) (ops : List (Operation F W)) (r : Request)
    (target : BuildTarget) :
    let m := (new w).after ws ops
    let last := (lastRegistered ops target).filter fun factory => ws.isCapable factory m.world
    let answer := (m.perform ws (r.submission target)).1
    let m' := (m.perform ws (r.submission target)).2
    (m.queue = [] ∨ ∃ j, m.queue = [j]) ∧
    (∀ e, r.asset? = .error e → answer = .submitted (.error e) ∧ m' = m) ∧
    ∀ asset, r.asset? = .ok asset → (∀ path, r = .path path → asset.path = path) ∧
      (last = none →
        answer = .submitted (.ok none) ∧
        m' = { m with
          world := ws.warn (.unsupported target) m.world
          history := .warned (.unsupported target) :: m.history }) ∧
      ∀ factory, last = some factory →
        (∀ j, m.queue = [j] → (ws.isComplete j m.world).1 = false →
          answer = .submitted (.ok none) ∧
          m' = { m with
            world := ws.warn .alreadyRunning (ws.isComplete j m.world).2
            history := .warned .alreadyRunning :: m.history }) ∧
        ((∀ j ∈ m.queue, (ws.isComplete j m.world).1 = true) →
          let lost := m.subscriptionCount < m.queue.length
          let asked := m.queue.foldl (fun w j => (ws.isComplete j w).2) m.world
          answer = .submitted (.ok (some m.created)) ∧
          m.Starts ws (if lost then ws.log lossRecord asked else asked) factory asset m' ∧
          m'.deeds = .created m.created asset :: .prepared ::
            ((if lost then [.logged lossRecord] else []) ++ (m.queue.map .swept ++ m.deeds)) ∧
          m'.subscriptionCount =
            min (m.subscriptionCount - m.queue.length + 1) (Limit.unsigned - 1) ∧
          m'.source.registered = true ∧
          ((∀ n, unmatched (ops.take n) < Limit.unsigned - 1) →
            ¬ lost ∧ m'.subscriptionCount = 1 + unmatched ops)) := by
  intro m last answer m'
  have hsingle : m.queue.length ≤ 1 := (orderly_after ws w ops).2.single
  have hlast : m.capableFactory ws target = last := by
    rw [capableFactory, lookup_after]
  have hperform : m.perform ws (r.submission target) = _ := perform_submission r target
  refine ⟨?_, ?_, ?_⟩
  · cases hq : m.queue with
    | nil => exact Or.inl rfl
    | cons j js =>
      rw [hq, List.length_cons] at hsingle
      obtain rfl : js = [] := List.eq_nil_of_length_eq_zero (by omega)
      exact Or.inr ⟨j, rfl⟩
  · intro e he
    simp only [he] at hperform
    exact ⟨congrArg Prod.fst hperform, congrArg Prod.snd hperform⟩
  · intro asset hasset
    simp only [hasset] at hperform
    have hanswer : answer = .submitted (.ok (m.submit ws asset target).1) := congrArg Prod.fst hperform
    have hm' : m' = (m.submit ws asset target).2 := congrArg Prod.snd hperform
    refine ⟨?_, ?_, ?_⟩
    · rintro path rfl
      exact ofPath_eq_ok hasset
    · intro hnone
      rw [hanswer, hm', submit, hlast, hnone]
      exact ⟨rfl, rfl⟩
    · intro factory hfactory
      have hf : m.capableFactory ws target = some factory := hlast.trans hfactory
      refine ⟨?_, ?_⟩
      · intro j hq hc
        have hsweep := sweep_incomplete hq hc
        have hbusy : (m.sweep ws).queue ≠ [] := by
          rw [hsweep]
          simp [hq]
        rw [hanswer, hm', submit_busy ws hf hbusy, hsweep]
        exact ⟨rfl, rfl⟩
      · intro hc lost asked
        obtain ⟨hid, hstarts, hdeeds, hcount⟩ := submit_starts hf hsingle hc asset
        rw [← hm'] at hstarts hdeeds hcount
        have htuned : m'.IsTuned := isTuned_perform ws (isTuned_after ws w ops) _
        refine ⟨by rw [hanswer, hid], hstarts, hdeeds, hcount, htuned.mpr ?_, ?_⟩
        · rw [hcount]
          exact Nat.lt_min.mpr ⟨Nat.succ_pos _, by decide⟩
        · intro hbound
          have hb : m.Balanced (unmatched ops) := balanced_after ws w ops hbound
          have hroom : unmatched ops < Limit.unsigned - 1 := by
            have := hbound ops.length
            rwa [List.take_length] at this
          have hb' : m'.Balanced (unmatched ops) := hm' ▸ hb.submit ws asset target hroom
          have hkeeps := hb'.keeps.count
          rw [hstarts.queue, List.length_singleton] at hkeeps
          exact ⟨hb.not_lost, hkeeps⟩

end Manager

end ShaderReport

import ShaderReport.Asset
import ShaderReport.BuildTarget
import ShaderReport.Log
import ShaderReport.Subscription

/-!
# The manager of report jobs

The manager has at most one job in flight. Jobs are known by the number of their creation; what they
do when they are ticked, and when they are complete, is up to the workshop that makes them, and so
is the world that they change. Each queued job holds one subscription to the ticks of the host, next
to the subscriptions of others.

The history tells, newest first, all that the manager did to the outside.
-/

namespace ShaderReport

/-- The number of a job: how many jobs were created before it. -/
abbrev JobId := Nat

/-- What the manager warns of. -/
inductive Warning where
  | unsupported (target : BuildTarget)
  | alreadyRunning
  deriving DecidableEq, Repr

/-- The text of a warning. -/
def Warning.message : Warning → String
  | .unsupported target => s!"platform {target.name} is not supported to build shader reports"
  | .alreadyRunning => "a build job is already running"

/-- All that a manager needs from outside: what the factories of type `F` are capable of, how they
make the jobs of each kind of assets, how jobs are ticked and asked whether they are complete, how
the world of type `W` is prepared for a job, and where warnings and log records go. -/
structure Workshop (F W : Type) where
  isCapable : F → W → Bool
  prepare : W → W
  createShaderJob : F → JobId → Path → W → W
  createComputeShaderJob : F → JobId → Path → W → W
  createMaterialJob : F → JobId → Path → W → W
  tick : JobId → W → Bool × W
  isComplete : JobId → W → Bool × W
  warn : Warning → W → W
  log : LogRecord → W → W

/-- Lets a factory make the job of an asset. -/
def Workshop.createJob {F W : Type} (ws : Workshop F W) (factory : F) (id : JobId) (asset : Asset) :
    W → W :=
  match asset.kind with
  | .shader => ws.createShaderJob factory id asset.path
  | .computeShader => ws.createComputeShaderJob factory id asset.path
  | .material => ws.createMaterialJob factory id asset.path

/-- What the manager did to the outside. -/
inductive Event where
  | signal (s : Signal)
  | warned (w : Warning)
  | logged (r : LogRecord)
  | prepared
  | created (job : JobId) (asset : Asset)
  | ticked (job : JobId) (complete : Bool)
  | swept (job : JobId)
  deriving DecidableEq, Repr

/-- A manager and the world that it works in. -/
structure Manager (F W : Type) where
  queue : List JobId
  factories : List (BuildTarget × F)
  subscription : Subscription
  external : Count
  source : TickSource
  created : Nat
  history : List Event
  world : W

namespace Manager

variable {F W : Type}

/-- A manager without factories and jobs. -/
def new (world : W) : Manager F W where
  queue := []
  factories := []
  subscription := .none
  external := 0
  source := .idle
  created := 0
  history := []
  world := world

/-- The number of queued jobs. -/
def pendingJobs (m : Manager F W) : Nat :=
  m.queue.length

/-- Whether no job is queued. -/
def isIdle (m : Manager F W) : Bool :=
  m.queue.isEmpty

/-- The number of subscriptions, those of queued jobs included. -/
def subscriptionCount (m : Manager F W) : Nat :=
  m.subscription.count.val

/-- The targets with a factory, each of them once. -/
def targets (m : Manager F W) : List BuildTarget :=
  BuildTarget.sorted (m.factories.map (·.1))

/-- The manager with one more event in its history. -/
def record (m : Manager F W) (e : Event) : Manager F W :=
  { m with history := e :: m.history }

/-- Tells the source something, or nothing. -/
def tell (m : Manager F W) : Option Signal → Manager F W
  | none => m
  | some s => { m with source := m.source.receive (some s) }.record (.signal s)

/-- Warns of something. -/
def warn (m : Manager F W) (ws : Workshop F W) (w : Warning) : Manager F W :=
  { m with world := ws.warn w m.world }.record (.warned w)

/-- Writes a record to the log. -/
def log (m : Manager F W) (ws : Workshop F W) (r : LogRecord) : Manager F W :=
  { m with world := ws.log r m.world }.record (.logged r)

/-- Sets the factory of a target. The last one set counts. -/
def register (m : Manager F W) (target : BuildTarget) (factory : F) : Manager F W :=
  { m with factories := (target, factory) :: m.factories }

/-- The factory of a target, if it is capable of building reports. -/
def capableFactory (m : Manager F W) (ws : Workshop F W) (target : BuildTarget) : Option F :=
  (m.factories.lookup target).filter fun f => ws.isCapable f m.world

/-- Subscribes on behalf of a job or of another. -/
def hold (m : Manager F W) : Manager F W :=
  let (subscription, signal) := m.subscription.subscribe
  { m with subscription := subscription }.tell signal

/-- Gives back the subscription of a job that left the queue. -/
def release (m : Manager F W) (ws : Workshop F W) : Manager F W :=
  match m.subscription.unsubscribe with
  | .ok (subscription, signal) => { m with subscription := subscription }.tell signal
  | .error cause => m.log ws ⟨.warning, cause.message⟩

/-- Asks jobs in order whether they are complete: the jobs that are not, those that are, and the
world after all the answers. -/
def partitionJobs (ws : Workshop F W) : List JobId → W → List JobId × List JobId × W
  | [], w => ([], [], w)
  | j :: js, w =>
    let (complete, w) := ws.isComplete j w
    let (running, finished, w) := partitionJobs ws js w
    if complete then (running, j :: finished, w) else (j :: running, finished, w)

/-- Drops the completed jobs from the queue and gives their subscriptions back. -/
def sweep (m : Manager F W) (ws : Workshop F W) : Manager F W :=
  let (running, finished, world) := partitionJobs ws m.queue m.world
  finished.foldl (fun m j => (m.record (.swept j)).release ws)
    { m with queue := running, world := world }

/-- Prepares the world and lets a factory create a job, which is queued. -/
def start (m : Manager F W) (ws : Workshop F W) (factory : F) (asset : Asset) : Manager F W :=
  let m := { m with world := ws.prepare m.world }.record .prepared
  let id := m.created
  let m := { m with
    world := ws.createJob factory id asset m.world
    created := id + 1
    queue := m.queue ++ [id] }.record (.created id asset)
  m.hold

/-- Asks for the report of an asset. It is refused with a warning if the target cannot build
reports, or else if a job is still running. -/
def submit (m : Manager F W) (ws : Workshop F W) (asset : Asset) (target : BuildTarget) :
    Option JobId × Manager F W :=
  match m.capableFactory ws target with
  | none => (none, m.warn ws (.unsupported target))
  | some factory =>
    let m := m.sweep ws
    if m.isIdle then (some m.created, m.start ws factory asset)
    else (none, m.warn ws .alreadyRunning)

/-- Asks for the report of what stands at a path. A path that is no asset changes nothing. -/
def submitPath (m : Manager F W) (ws : Workshop F W) (path : Path) (target : BuildTarget) :
    Except InvalidAsset (Option JobId) × Manager F W :=
  match Asset.ofPath path with
  | .error e => (.error e, m)
  | .ok asset =>
    let (job, m) := m.submit ws asset target
    (.ok job, m)

/-- Ticks the oldest job, which leaves the queue once it answers that it is complete. -/
def onTick (m : Manager F W) (ws : Workshop F W) : Manager F W :=
  match m.queue with
  | [] => m
  | j :: js =>
    let (complete, world) := ws.tick j m.world
    let m := { m with world := world }.record (.ticked j complete)
    if complete then { m with queue := js }.release ws else m

/-- Subscribes on behalf of another. -/
def subscribe (m : Manager F W) : Manager F W :=
  { m with external := m.external.succ }.hold

/-- Undoes one subscription of another. -/
def unsubscribe (m : Manager F W) : Except UnbalancedUnsubscribe Unit × Manager F W :=
  match m.external.pred? with
  | none => (.error .unmatched, m)
  | some external =>
    let m := { m with external := external }
    match m.subscription.unsubscribe with
    | .ok (subscription, signal) => (.ok (), { m with subscription := subscription }.tell signal)
    | .error cause => (.error cause, m)

end Manager

end ShaderReport

import Hipscope.Machine.Runs
import Hipscope.Replay.Access

/-! The replay controller: which backend was requested, what it has recorded,
which graph it prepared, and when a forward is routed to that graph. -/
namespace Hipscope.Replay.Controller
open Machine Redline

inductive ReplayBackendRequest where
  | hip
  | shadow
  | auto
  deriving DecidableEq, Repr

inductive ReplayTransport where
  | aqlPackets
  | pm4Ib
  deriving DecidableEq, Repr

inductive ReplayState where
  | hip
  | armed
  | recordingWarmup
  | captured
  | shadowValidated
  | ready
  | fallback
  deriving DecidableEq, Repr

/-- A graph on one public queue, with the launches it was lowered from. -/
structure PreparedLinearAqlReplay where
  dispatches : List RecordedHipLaunch
  profiled : Bool

/-- A retained PM4 graph, with the launches it was lowered from. -/
structure PreparedPm4Replay where
  dispatches : List RecordedHipLaunch
  dispatchBoundaries : Bool

structure ReplayObservation where
  count : ℕ
  firstPosition : Option ℕ
  lastPosition : Option ℕ
  failed : Bool
  deriving DecidableEq

def ReplayObservation.default : ReplayObservation := ⟨0, none, none, false⟩

/-- One comparison of a replay with HIP; a speedup that is not finite is `none`. -/
structure ShadowValidation where
  bitExact : Bool
  guardsIntact : Bool
  sameArtifact : Bool
  abiValid : Bool
  automaticClocks : Bool
  gpuTimed : Bool
  speedupOverHip : Option ℚ

def ShadowValidation.passes (v : ShadowValidation) (threshold : ℚ) : Bool :=
  v.bitExact && v.guardsIntact && v.sameArtifact && v.abiValid && v.automaticClocks && v.gpuTimed &&
    v.speedupOverHip.any fun speedup => threshold ≤ speedup

/-- How the effects of a launch were found. -/
inductive LaunchEffects where
  | unknown
  | certified
  | fallback
  deriving DecidableEq

structure ReplayController where
  request : ReplayBackendRequest
  transport : ReplayTransport
  state : ReplayState
  recorded : List RecordedHipLaunch
  certifiedSpeedups : List ℚ
  threshold : ℚ
  maxRecordedLaunches : ℕ
  fallbackReason : Option String
  prepared : Option PreparedLinearAqlReplay
  preparedPm4 : Option PreparedPm4Replay
  autoLifecycle : Bool
  forwardEligible : Bool
  replayObservation : ReplayObservation
  radiowaveEffectLaunches : ℕ
  fallbackEffectLaunches : ℕ
  unknownEffectLaunches : ℕ

structure ReplayCaptureSummary where
  launchCount : ℕ
  uniqueKernelCount : ℕ
  sequenceHash : UInt64
  deriving DecidableEq

/-- The bytes of a launch that its sequence hash covers. -/
def hashedBytes (launch : RecordedHipLaunch) : List UInt8 :=
  launch.kernel.toUTF8.toList ++ [0] ++
    ([launch.grid.x, launch.grid.y, launch.grid.z, launch.block.x, launch.block.y, launch.block.z,
      launch.sharedMem].flatMap fun value => toLeBytes 4 value) ++
    match launch.gridBinding with
    | none => [0]
    | some (.positionCeilDiv axis addend divisor) =>
      1 :: UInt8.ofNat axis :: (toLeBytes 4 addend ++ toLeBytes 4 divisor)

def replaySequenceHash (launches : List RecordedHipLaunch) : UInt64 :=
  (launches.flatMap hashedBytes).foldl
    (fun hash byte => (hash ^^^ byte.toUInt64) * 0x100000001b3) 0xcbf29ce484222325

/-- What the process configuration says about replaying. -/
structure ReplayConfig where
  request : ReplayBackendRequest
  transport : ReplayTransport
  manualCapture : Bool
  explicitBackend : Bool
  explicitTransport : Bool

namespace ReplayController

/-- The threshold is the double nearest to 1.03. -/
def new (transport : ReplayTransport) (request : ReplayBackendRequest) : ReplayController where
  request
  transport
  state := if request = .hip then .hip else .recordingWarmup
  recorded := []
  certifiedSpeedups := []
  threshold := 4638707616191611 / 4503599627370496
  maxRecordedLaunches := 4096
  fallbackReason := none
  prepared := none
  preparedPm4 := none
  autoLifecycle := false
  forwardEligible := true
  replayObservation := .default
  radiowaveEffectLaunches := 0
  fallbackEffectLaunches := 0
  unknownEffectLaunches := 0

def newArmed (transport : ReplayTransport) (request : ReplayBackendRequest) : ReplayController :=
  let controller := new transport request
  if request ≠ .hip then { controller with state := .armed } else controller

def newManualPm4 : ReplayController :=
  { newArmed .pm4Ib .auto with autoLifecycle := false, maxRecordedLaunches := 8192 }

def newManualAql : ReplayController :=
  { newArmed .aqlPackets .auto with autoLifecycle := false, maxRecordedLaunches := 8192 }

def fromConfig (config : ReplayConfig) : ReplayController :=
  let controller := if config.manualCapture then newArmed config.transport config.request
    else new config.transport config.request
  let controller := { controller with autoLifecycle := !config.manualCapture }
  if !config.manualCapture && config.request ≠ .hip then { controller with state := .armed } else controller

def resetForModel (request : ReplayBackendRequest) (transport : ReplayTransport) (autoLifecycle : Bool)
    (c : ReplayController) : ReplayController :=
  { c with
    request
    transport
    state := if request = .hip then .hip else .armed
    recorded := []
    certifiedSpeedups := []
    fallbackReason := none
    prepared := none
    preparedPm4 := none
    autoLifecycle
    forwardEligible := true
    replayObservation := .default
    radiowaveEffectLaunches := 0
    fallbackEffectLaunches := 0
    unknownEffectLaunches := 0 }

def applyModelDefault (enableMq4r : Bool) (transport : ReplayTransport) (c : ReplayController) :
    ReplayController :=
  c.resetForModel (if enableMq4r then .auto else .hip) transport true

/-- An explicit backend selection always wins over the model's default. -/
def configureModelDefault (config : ReplayConfig) (enableMq4r : Bool) (c : ReplayController) :
    ReplayController × Bool :=
  if config.explicitBackend || config.manualCapture then
    (c.resetForModel config.request config.transport !config.manualCapture, false)
  else
    let transport := if enableMq4r && !config.explicitTransport then .pm4Ib else config.transport
    (c.applyModelDefault enableMq4r transport, true)

def rearmAfterLayoutGrowth (c : ReplayController) : ReplayController :=
  c.resetForModel c.request c.transport c.autoLifecycle

def isRecording (c : ReplayController) : Bool :=
  decide (c.state = .recordingWarmup) && c.forwardEligible

def shouldRouteAql (c : ReplayController) : Bool :=
  c.forwardEligible && decide (c.request = .auto) && decide (c.state = .ready) &&
    decide (c.transport = .aqlPackets)

def shouldRoutePm4 (c : ReplayController) : Bool :=
  c.forwardEligible && decide (c.request = .auto) && decide (c.state = .ready) &&
    decide (c.transport = .pm4Ib)

def poison (reason : String) (c : ReplayController) : ReplayController :=
  { c with fallbackReason := some reason, state := .fallback }

def beginCapture (c : ReplayController) : ReplayController × Except String Unit :=
  match c.state with
  | .hip => (c, .error "replay backend is disabled")
  | .fallback => (c, .error "replay controller is in sticky fallback")
  | .ready => (c, .error "cannot capture after a prepared plan is installed")
  | _ =>
    ({ c with
        recorded := []
        radiowaveEffectLaunches := 0
        fallbackEffectLaunches := 0
        unknownEffectLaunches := 0
        state := .recordingWarmup }, .ok ())

def beginAutoCaptureIfArmed (c : ReplayController) : ReplayController × Except String Unit :=
  if c.autoLifecycle && c.forwardEligible && decide (c.state = .armed) then c.beginCapture else (c, .ok ())

def captureSummary (c : ReplayController) : ReplayCaptureSummary where
  launchCount := c.recorded.length
  uniqueKernelCount := (c.recorded.map fun launch => launch.kernel).dedup.length
  sequenceHash := replaySequenceHash c.recorded

def finishCapture (c : ReplayController) : ReplayController × Except String ReplayCaptureSummary :=
  if c.state ≠ .recordingWarmup then (c, .error "no replay capture is active")
  else
    ({ c with state := if 2 ≤ c.certifiedSpeedups.length then .shadowValidated else .captured },
      .ok c.captureSummary)

def recordHipLaunchWithAccesses (launch : RecordedHipLaunch) (c : ReplayController) : ReplayController :=
  if !c.isRecording then c
  else if c.recorded.length = c.maxRecordedLaunches then
    c.poison "warmup launch recorder capacity exceeded"
  else { c with recorded := c.recorded ++ [launch] }

def countEffects (c : ReplayController) : LaunchEffects → ReplayController
  | .unknown => { c with unknownEffectLaunches := c.unknownEffectLaunches + 1 }
  | .certified => { c with radiowaveEffectLaunches := c.radiowaveEffectLaunches + 1 }
  | .fallback => { c with fallbackEffectLaunches := c.fallbackEffectLaunches + 1 }

def recordHipLaunchTypedBound (launch : RecordedHipLaunch) (effects : LaunchEffects)
    (c : ReplayController) : ReplayController :=
  if !c.isRecording then c
  else (c.countEffects effects).recordHipLaunchWithAccesses launch

def observeShadow (observation : ShadowValidation) (c : ReplayController) : ReplayController :=
  if c.state = .hip || c.state = .fallback then c
  else if !observation.passes c.threshold then
    c.poison "shadow parity, ABI, timing, or speed threshold failed"
  else
    let c := { c with certifiedSpeedups := c.certifiedSpeedups ++ observation.speedupOverHip.toList }
    if 2 ≤ c.certifiedSpeedups.length then { c with state := .shadowValidated } else c

def installPreparedPlan (c : ReplayController) : ReplayController × Except String Unit :=
  if c.state ≠ .shadowValidated then (c, .error "two passing shadow validations are required")
  else if c.request = .shadow then (c, .error "shadow mode never changes the launch route")
  else ({ c with state := .ready }, .ok ())

/-- Lower the first launches to one public queue. `failure` is what went wrong
after the length was checked, if anything did. -/
def prepareLinearAqlPrefix (length : ℕ) (failure : Option String) (c : ReplayController) :
    ReplayController × Except String ℕ :=
  if c.recorded = [] then (c, .error "no captured launch sequence")
  else if length < 2 || c.recorded.length < length then (c, .error "AQL prefix out of range")
  else match failure with
    | some reason => (c, .error reason)
    | none =>
      ({ c with
          prepared := some ⟨c.recorded.take length, decide (c.request ≠ .auto)⟩
          state := .ready }, .ok length)

/-- Lower the first launches to PM4, with per-dispatch timestamps on request. -/
def preparePm4PrefixInner (length : ℕ) (dispatchProfile : Bool) (failure : Option String)
    (c : ReplayController) : ReplayController × Except String ℕ :=
  if c.recorded = [] then (c, .error "no captured launch sequence")
  else if length = 0 || c.recorded.length < length then (c, .error "PM4 prefix out of range")
  else match failure with
    | some reason => (c, .error reason)
    | none =>
      ({ c with preparedPm4 := some ⟨c.recorded.take length, dispatchProfile⟩, state := .ready },
        .ok length)

/-- The number of replays saturates at 64 bits. -/
def observeReplayResult (position : ℕ) (result : Except String Unit) (c : ReplayController) :
    ReplayController × Except String Unit :=
  match result with
  | .error reason =>
    ({ c with replayObservation := { c.replayObservation with failed := true } }, .error reason)
  | .ok () =>
    ({ c with
        replayObservation := { c.replayObservation with
          count := min (c.replayObservation.count + 1) (2 ^ 64 - 1)
          firstPosition := c.replayObservation.firstPosition.or (some position)
          lastPosition := some position } }, .ok ())

def replayLinearAql (position : ℕ) (result : Except String Unit) (c : ReplayController) :
    ReplayController × Except String Unit :=
  match c.prepared with
  | none => (c, .error "no prepared AQL replay")
  | some _ => c.observeReplayResult position result

def replayPm4 (position : ℕ) (result : Except String Unit) (c : ReplayController) :
    ReplayController × Except String Unit :=
  match c.preparedPm4 with
  | none => (c, .error "no prepared PM4 replay")
  | some _ => c.observeReplayResult position result

def replayPm4DispatchProfile (position : ℕ) (result : Except String Unit) (c : ReplayController) :
    ReplayController × Except String Unit :=
  match c.preparedPm4 with
  | none => (c, .error "no prepared PM4 replay")
  | some prepared =>
    c.observeReplayResult position
      (if prepared.dispatchBoundaries then result
        else .error "prepared PM4 graph has no per-dispatch timestamps")

end ReplayController

/-- Everything the owner of a controller can do, with what the runtime answers. -/
inductive ControllerAction where
  | setForwardEligible (eligible : Bool)
  | beginAutoCaptureIfArmed
  | beginCapture
  | finishCapture
  | recordHipLaunch (launch : RecordedHipLaunch) (effects : LaunchEffects)
  | observeShadow (observation : ShadowValidation)
  | installPreparedPlan
  | prepareLinearAqlPrefix (length : ℕ) (failure : Option String)
  | preparePm4Prefix (length : ℕ) (dispatchProfile : Bool) (failure : Option String)
  | replayLinearAql (position : ℕ) (result : Except String Unit)
  | replayPm4 (position : ℕ) (result : Except String Unit)
  | replayPm4DispatchProfile (position : ℕ) (result : Except String Unit)
  | beginReplayObservationWindow
  | invalidateReplayObservationWindow
  | poison (reason : String)
  | configureModelDefault (config : ReplayConfig) (enableMq4r : Bool)
  | rearmAfterLayoutGrowth

/-- How a controller came to be ready. -/
inductive Adoption where
  | prepared (transport : ReplayTransport)
  | installed
  deriving DecidableEq

namespace ReplayController

def act (c : ReplayController) : ControllerAction → ReplayController
  | .setForwardEligible eligible => { c with forwardEligible := eligible }
  | .beginAutoCaptureIfArmed => c.beginAutoCaptureIfArmed.1
  | .beginCapture => c.beginCapture.1
  | .finishCapture => c.finishCapture.1
  | .recordHipLaunch launch effects => c.recordHipLaunchTypedBound launch effects
  | .observeShadow observation => c.observeShadow observation
  | .installPreparedPlan => c.installPreparedPlan.1
  | .prepareLinearAqlPrefix length failure => (c.prepareLinearAqlPrefix length failure).1
  | .preparePm4Prefix length dispatchProfile failure =>
    (c.preparePm4PrefixInner length dispatchProfile failure).1
  | .replayLinearAql position result => (c.replayLinearAql position result).1
  | .replayPm4 position result => (c.replayPm4 position result).1
  | .replayPm4DispatchProfile position result => (c.replayPm4DispatchProfile position result).1
  | .beginReplayObservationWindow => { c with replayObservation := .default }
  | .invalidateReplayObservationWindow =>
    { c with replayObservation := { c.replayObservation with failed := true } }
  | .poison reason => c.poison reason
  | .configureModelDefault config enableMq4r => (c.configureModelDefault config enableMq4r).1
  | .rearmAfterLayoutGrowth => c.rearmAfterLayoutGrowth

/-- The adoption an action makes, if it makes one. -/
def adoption (c : ReplayController) : ControllerAction → List Adoption
  | .installPreparedPlan => if c.installPreparedPlan.2.isOk then [.installed] else []
  | .prepareLinearAqlPrefix length failure =>
    if (c.prepareLinearAqlPrefix length failure).2.isOk then [.prepared .aqlPackets] else []
  | .preparePm4Prefix length dispatchProfile failure =>
    if (c.preparePm4PrefixInner length dispatchProfile failure).2.isOk then [.prepared .pm4Ib] else []
  | _ => []

def step (c : ReplayController) (action : ControllerAction) :
    Option (ReplayController × List Adoption) :=
  some (c.act action, c.adoption action)

/-- The launches are a nonempty beginning of the recording. -/
def BuiltFrom (dispatches recorded : List RecordedHipLaunch) : Prop :=
  ∃ length, 0 < length ∧ length ≤ recorded.length ∧ dispatches = recorded.take length

/-- The controller holds a graph for its transport, built from what it has recorded. -/
def HoldsGraph (c : ReplayController) : Prop :=
  match c.transport with
  | .aqlPackets => ∃ graph, c.prepared = some graph ∧ BuiltFrom graph.dispatches c.recorded
  | .pm4Ib => ∃ graph, c.preparedPm4 = some graph ∧ BuiltFrom graph.dispatches c.recorded

/-- Graphs are prepared for the controller's own transport and outside fallback. -/
def Orderly (c : ReplayController) : ControllerAction → Prop
  | .prepareLinearAqlPrefix _ failure =>
    failure = none → c.state ≠ .fallback ∧ c.transport = .aqlPackets
  | .preparePm4Prefix _ _ failure => failure = none → c.state ≠ .fallback ∧ c.transport = .pm4Ib
  | _ => True

end ReplayController

def ControllerAction.isModelReset : ControllerAction → Bool
  | .configureModelDefault .. | .rearmAfterLayoutGrowth => true
  | _ => false

/-- The controllers the crate can construct. -/
inductive Constructed : ReplayController → Prop
  | new (transport : ReplayTransport) (request : ReplayBackendRequest) : Constructed (.new transport request)
  | newArmed (transport : ReplayTransport) (request : ReplayBackendRequest) :
    Constructed (.newArmed transport request)
  | newManualPm4 : Constructed .newManualPm4
  | newManualAql : Constructed .newManualAql
  | fromConfig (config : ReplayConfig) : Constructed (.fromConfig config)

namespace ReplayController
variable {c start : ReplayController} {action : ControllerAction}

theorem constructed_not_ready (h : Constructed start) : start.state ≠ .ready := by
  cases h with
  | new transport request => cases request <;> simp [new]
  | newArmed transport request => cases request <;> simp [newArmed, new]
  | newManualPm4 => simp [newManualPm4, newArmed, new]
  | newManualAql => simp [newManualAql, newArmed, new]
  | fromConfig config =>
    rcases config with ⟨request, transport, manual, -, -⟩
    cases request <;> cases manual <;> simp [fromConfig, newArmed, new]

/-- The parts of a controller that decide where a forward goes. -/
def route (c : ReplayController) :=
  (c.transport, c.recorded, c.prepared, c.preparedPm4)

theorem HoldsGraph.of_route {c' : ReplayController} (h : c.HoldsGraph) (hroute : c'.route = c.route) :
    c'.HoldsGraph := by
  simp only [route, Prod.mk.injEq] at hroute
  obtain ⟨ht, hr, hp, hpm4⟩ := hroute
  simpa only [HoldsGraph, ht, hr, hp, hpm4] using h

/-- The operation leaves a ready controller only as it found it. -/
private def Keeps (c c' : ReplayController) : Prop :=
  (c'.state = .ready → c'.route = c.route ∧ c.state = .ready) ∧
    (c.state = .fallback → c'.state = .fallback)

private theorem Keeps.refl : Keeps c c := ⟨fun h => ⟨rfl, h⟩, id⟩

private theorem Keeps.of_eq {c' : ReplayController} (hroute : c'.route = c.route)
    (hstate : c'.state = c.state) : Keeps c c' :=
  ⟨fun h => ⟨hroute, hstate ▸ h⟩, fun h => hstate.trans h⟩

private theorem Keeps.of_states {c' : ReplayController} (h : c.state ≠ .fallback)
    (h' : c'.state ≠ .ready) : Keeps c c' :=
  ⟨fun hready => absurd hready h', fun hfallback => absurd hfallback h⟩

private theorem Keeps.trans {c₁ c₂ : ReplayController} (h : Keeps c c₁) (h' : Keeps c₁ c₂) :
    Keeps c c₂ := by
  refine ⟨fun hready => ?_, fun hfallback => h'.2 (h.2 hfallback)⟩
  obtain ⟨hroute, hready⟩ := h'.1 hready
  obtain ⟨hroute', hready⟩ := h.1 hready
  exact ⟨hroute.trans hroute', hready⟩

private theorem Keeps.poison (reason : String) : Keeps c (c.poison reason) :=
  ⟨(by cases ·), fun _ => rfl⟩

private theorem beginCapture_keeps : Keeps c c.beginCapture.1 := by
  rw [beginCapture]
  split
  case h_4 hhip hfallback hready => exact .of_states hfallback (by simp)
  all_goals exact .refl

private theorem beginAutoCaptureIfArmed_keeps : Keeps c c.beginAutoCaptureIfArmed.1 := by
  rw [beginAutoCaptureIfArmed]
  split_ifs
  · exact beginCapture_keeps
  · exact .refl

private theorem finishCapture_keeps : Keeps c c.finishCapture.1 := by
  rw [finishCapture]
  split_ifs with hstate hcount
  · exact .refl
  all_goals
    have hwarm : c.state = .recordingWarmup := not_not.mp hstate
    exact .of_states (by simp [hwarm]) (by simp)

private theorem recordHipLaunchWithAccesses_keeps (launch : RecordedHipLaunch) :
    Keeps c (c.recordHipLaunchWithAccesses launch) := by
  rw [recordHipLaunchWithAccesses]
  split_ifs
  · exact .refl
  · exact .poison _
  · rename_i hrecording _
    have hwarm : c.state = .recordingWarmup := by
      simp only [isRecording, Bool.not_eq_true', Bool.not_eq_false, Bool.and_eq_true,
        decide_eq_true_eq] at hrecording
      exact hrecording.1
    exact .of_states (by simp [hwarm]) (by simp [hwarm])

private theorem recordHipLaunchTypedBound_keeps (launch : RecordedHipLaunch) (effects : LaunchEffects) :
    Keeps c (c.recordHipLaunchTypedBound launch effects) := by
  rw [recordHipLaunchTypedBound]
  split_ifs
  · exact .refl
  · have hcount : Keeps c (c.countEffects effects) := by
      cases effects <;> exact .of_eq rfl rfl
    exact hcount.trans (recordHipLaunchWithAccesses_keeps launch)

private theorem observeShadow_keeps (observation : ShadowValidation) :
    Keeps c (c.observeShadow observation) := by
  simp only [observeShadow]
  split_ifs with hstate hpasses hcount
  · exact .refl
  · exact .poison _
  · have hfallback : c.state ≠ .fallback := fun h => by simp [h] at hstate
    exact .of_states hfallback (by simp)
  · exact .of_eq rfl rfl

private theorem observeReplayResult_keeps (position : ℕ) (result : Except String Unit) :
    Keeps c (c.observeReplayResult position result).1 := by
  rcases result with _ | _ <;> exact .of_eq rfl rfl

private theorem resetForModel_not_ready (request : ReplayBackendRequest) (transport : ReplayTransport)
    (autoLifecycle : Bool) : (c.resetForModel request transport autoLifecycle).state ≠ .ready := by
  cases request <;> simp [resetForModel]

/-- An operation that fails leaves the controller as it was. -/
private theorem installPreparedPlan_failed (h : ¬ c.installPreparedPlan.2.isOk) :
    c.installPreparedPlan.1 = c := by
  rw [installPreparedPlan] at h ⊢
  split_ifs at h ⊢
  · rfl
  · rfl
  · exact absurd rfl h

private theorem prepareLinearAqlPrefix_failed {length : ℕ} {failure : Option String}
    (h : ¬ (c.prepareLinearAqlPrefix length failure).2.isOk) :
    (c.prepareLinearAqlPrefix length failure).1 = c := by
  simp only [prepareLinearAqlPrefix] at h ⊢
  split_ifs at h ⊢
  · rfl
  · rfl
  · cases failure with
    | some reason => rfl
    | none => exact absurd rfl h

private theorem preparePm4PrefixInner_failed {length : ℕ} {dispatchProfile : Bool}
    {failure : Option String} (h : ¬ (c.preparePm4PrefixInner length dispatchProfile failure).2.isOk) :
    (c.preparePm4PrefixInner length dispatchProfile failure).1 = c := by
  simp only [preparePm4PrefixInner] at h ⊢
  split_ifs at h ⊢
  · rfl
  · rfl
  · cases failure with
    | some reason => rfl
    | none => exact absurd rfl h

/-- Apart from model resets, an action that prepares and installs nothing keeps. -/
private theorem act_keeps (h : c.adoption action = []) (hreset : action.isModelReset = false) :
    Keeps c (c.act action) := by
  cases action with
  | setForwardEligible eligible => exact .of_eq rfl rfl
  | beginAutoCaptureIfArmed => exact beginAutoCaptureIfArmed_keeps
  | beginCapture => exact beginCapture_keeps
  | finishCapture => exact finishCapture_keeps
  | recordHipLaunch launch effects => exact recordHipLaunchTypedBound_keeps launch effects
  | observeShadow observation => exact observeShadow_keeps observation
  | installPreparedPlan =>
    rw [act, installPreparedPlan_failed fun hok => by simp [adoption, hok] at h]
    exact .refl
  | prepareLinearAqlPrefix length failure =>
    rw [act, prepareLinearAqlPrefix_failed fun hok => by simp [adoption, hok] at h]
    exact .refl
  | preparePm4Prefix length dispatchProfile failure =>
    rw [act, preparePm4PrefixInner_failed fun hok => by simp [adoption, hok] at h]
    exact .refl
  | replayLinearAql position result =>
    simp only [act, replayLinearAql]
    cases c.prepared <;> first | exact .refl | exact observeReplayResult_keeps _ _
  | replayPm4 position result =>
    simp only [act, replayPm4]
    cases c.preparedPm4 <;> first | exact .refl | exact observeReplayResult_keeps _ _
  | replayPm4DispatchProfile position result =>
    simp only [act, replayPm4DispatchProfile]
    cases c.preparedPm4 <;> first | exact .refl | exact observeReplayResult_keeps _ _
  | beginReplayObservationWindow => exact .of_eq rfl rfl
  | invalidateReplayObservationWindow => exact .of_eq rfl rfl
  | poison reason => exact .poison reason
  | configureModelDefault config enableMq4r => cases hreset
  | rearmAfterLayoutGrowth => cases hreset

private theorem act_reset_not_ready (h : action.isModelReset = true) : (c.act action).state ≠ .ready := by
  cases action with
  | configureModelDefault config enableMq4r =>
    simp only [act, configureModelDefault]
    split_ifs <;> exact resetForModel_not_ready _ _ _
  | rearmAfterLayoutGrowth => exact resetForModel_not_ready _ _ _
  | _ => cases h

/-- What a preparation that succeeds leaves behind. -/
private theorem prepareLinearAqlPrefix_holds {length : ℕ} {failure : Option String}
    (h : (c.prepareLinearAqlPrefix length failure).2.isOk) :
    failure = none ∧ ∃ graph, (c.prepareLinearAqlPrefix length failure).1.prepared = some graph ∧
      BuiltFrom graph.dispatches (c.prepareLinearAqlPrefix length failure).1.recorded ∧
      (c.prepareLinearAqlPrefix length failure).1.transport = c.transport := by
  simp only [prepareLinearAqlPrefix] at h ⊢
  split_ifs at h ⊢ with hempty hrange
  · cases h
  · cases h
  · cases failure with
    | some reason => cases h
    | none =>
      simp only [Bool.or_eq_true, decide_eq_true_eq, not_or, not_lt] at hrange
      exact ⟨rfl, _, rfl, ⟨length, by omega, hrange.2, rfl⟩, rfl⟩

private theorem preparePm4PrefixInner_holds {length : ℕ} {dispatchProfile : Bool}
    {failure : Option String} (h : (c.preparePm4PrefixInner length dispatchProfile failure).2.isOk) :
    failure = none ∧
      ∃ graph, (c.preparePm4PrefixInner length dispatchProfile failure).1.preparedPm4 = some graph ∧
        BuiltFrom graph.dispatches (c.preparePm4PrefixInner length dispatchProfile failure).1.recorded ∧
        (c.preparePm4PrefixInner length dispatchProfile failure).1.transport = c.transport := by
  simp only [preparePm4PrefixInner] at h ⊢
  split_ifs at h ⊢ with hempty hrange
  · cases h
  · cases h
  · cases failure with
    | some reason => cases h
    | none =>
      simp only [Bool.or_eq_true, decide_eq_true_eq, not_or, not_lt] at hrange
      exact ⟨rfl, _, rfl, ⟨length, Nat.pos_of_ne_zero hrange.1, hrange.2, rfl⟩, rfl⟩

/-- An adoption installs a plan, or leaves a graph of the controller's transport. -/
private theorem adoption_holds (ho : c.Orderly action) (h : c.adoption action ≠ []) :
    c.state ≠ .fallback ∧ (c.adoption action = [.installed] ∨ (c.act action).HoldsGraph) := by
  cases action with
  | installPreparedPlan =>
    refine ⟨fun hstate => h ?_, Or.inl ?_⟩
    · simp [adoption, installPreparedPlan, hstate, Except.isOk, Except.toBool]
    · simp only [adoption] at h ⊢
      split_ifs at h ⊢
      · rfl
      · exact absurd rfl h
  | prepareLinearAqlPrefix length failure =>
    simp only [adoption] at h
    split_ifs at h with hok
    · obtain ⟨hnone, graph, hgraph, hbuilt, htransport⟩ := prepareLinearAqlPrefix_holds hok
      obtain ⟨hstate, haql⟩ := ho hnone
      refine ⟨hstate, Or.inr ?_⟩
      simp only [HoldsGraph, act, htransport, haql]
      exact ⟨graph, hgraph, hbuilt⟩
    · exact absurd rfl h
  | preparePm4Prefix length dispatchProfile failure =>
    simp only [adoption] at h
    split_ifs at h with hok
    · obtain ⟨hnone, graph, hgraph, hbuilt, htransport⟩ := preparePm4PrefixInner_holds hok
      obtain ⟨hstate, hpm4⟩ := ho hnone
      refine ⟨hstate, Or.inr ?_⟩
      simp only [HoldsGraph, act, htransport, hpm4]
      exact ⟨graph, hgraph, hbuilt⟩
    · exact absurd rfl h
  | _ => exact absurd rfl h

/-- A ready controller holds a graph, or an adapter answers for the plan. -/
def Backed (adoptions : List Adoption) (c : ReplayController) : Prop :=
  c.state = .ready → c.HoldsGraph ∨ adoptions.getLast? = some .installed

theorem Backed.act {adoptions : List Adoption} (h : c.Backed adoptions) (ho : c.Orderly action) :
    (c.act action).Backed (adoptions ++ c.adoption action) := by
  intro hready
  cases hreset : action.isModelReset with
  | true => exact absurd hready (act_reset_not_ready hreset)
  | false =>
    by_cases hadopt : c.adoption action = []
    · obtain ⟨hroute, hwas⟩ := (act_keeps hadopt hreset).1 hready
      rw [hadopt, List.append_nil]
      exact (h hwas).imp_left fun hholds => hholds.of_route hroute
    · rcases (adoption_holds ho hadopt).2 with hinstalled | hholds
      · exact Or.inr (by rw [hinstalled, List.getLast?_append]; rfl)
      · exact Or.inl hholds

/-- A fallback survives every orderly action but a model reset. -/
theorem fallback_act (h : c.state = .fallback) (ho : c.Orderly action)
    (hreset : action.isModelReset = false) : (c.act action).state = .fallback := by
  by_cases hadopt : c.adoption action = []
  · exact (act_keeps hadopt hreset).2 h
  · exact absurd h (adoption_holds ho hadopt).1

/-- In a run that prepares graphs only for the controller's transport and outside
fallback: a routed forward has a graph of the current recording behind it, or a
plan an adapter installed; fallback is left by a model reset only; and Hip and
Shadow never route. -/
theorem orderly_runs_fail_closed (hstart : Constructed start) {actions : List ControllerAction}
    {adoptions : List Adoption} (hrun : Runs step Orderly start actions adoptions c) :
    (c.shouldRoutePm4 → (∃ graph, c.preparedPm4 = some graph ∧ BuiltFrom graph.dispatches c.recorded) ∨
      adoptions.getLast? = some .installed) ∧
    (c.shouldRouteAql → (∃ graph, c.prepared = some graph ∧ BuiltFrom graph.dispatches c.recorded) ∨
      adoptions.getLast? = some .installed) ∧
    (c.request ≠ .auto → c.shouldRoutePm4 = false ∧ c.shouldRouteAql = false) ∧
    (c.state = .fallback → ∀ more later last,
      Runs step (fun c action => Orderly c action ∧ action.isModelReset = false) c more later last →
        last.shouldRoutePm4 = false ∧ last.shouldRouteAql = false ∧ last.isRecording = false) := by
  have hbacked : c.Backed adoptions := by
    refine hrun.invariant (P := fun adoptions c => c.Backed adoptions) ?_ ?_
    · exact fun h => absurd h (constructed_not_ready hstart)
    · intro adoptions c action next emitted hbacked ho hstep
      obtain ⟨rfl, rfl⟩ := Prod.mk.inj (Option.some.inj hstep)
      exact hbacked.act ho
  refine ⟨fun hroute => ?_, fun hroute => ?_, fun hrequest => ?_, fun hfallback more later last hlater => ?_⟩
  · simp only [shouldRoutePm4, Bool.and_eq_true, decide_eq_true_eq] at hroute
    simpa only [HoldsGraph, hroute.2] using hbacked hroute.1.2
  · simp only [shouldRouteAql, Bool.and_eq_true, decide_eq_true_eq] at hroute
    simpa only [HoldsGraph, hroute.2] using hbacked hroute.1.2
  · simp [shouldRoutePm4, shouldRouteAql, hrequest]
  · have hlast : last.state = .fallback := by
      refine hlater.state_invariant (P := fun c => c.state = .fallback) hfallback ?_
      intro c action next emitted hc ho hstep
      obtain ⟨rfl, -⟩ := Prod.mk.inj (Option.some.inj hstep)
      exact fallback_act hc ho.1 ho.2
    simp [shouldRoutePm4, shouldRouteAql, isRecording, hlast]

/-- A launch with no owning artifact. -/
def plainLaunch (kernel : String) : RecordedHipLaunch :=
  ⟨kernel, none, ⟨1, 1, 1⟩, ⟨32, 1, 1⟩, 0, none, [], none⟩

def passing : ShadowValidation := ⟨true, true, true, true, true, true, some 2⟩

theorem captured_pair_routes :
    ∃ c : ReplayController, c.shouldRoutePm4 ∧
      ((∃ graph, c.preparedPm4 = some graph ∧ BuiltFrom graph.dispatches c.recorded) ∨
        [Adoption.prepared .pm4Ib].getLast? = some .installed) :=
  have hrun : Runs step Orderly newManualPm4
      ([] ++ [.beginCapture] ++ [.recordHipLaunch (plainLaunch "k") .unknown] ++ [.finishCapture] ++
        [.preparePm4Prefix 1 false none]) ([] ++ [] ++ [] ++ [] ++ [.prepared .pm4Ib]) _ :=
    ((((Runs.nil.snoc trivial rfl).snoc trivial rfl).snoc trivial rfl).snoc (fun _ => ⟨by decide, rfl⟩) rfl)
  ⟨_, rfl, (orderly_runs_fail_closed .newManualPm4 hrun).1 rfl⟩

/-- An adapter's plan routes with no graph in the controller; and a graph that is
prepared in fallback, or for the other transport, makes the controller ready. -/
theorem unprepared_routes :
    (∃ actions adoptions c, Runs step (fun _ action => action.isModelReset = false)
      (new .aqlPackets .auto) actions adoptions c ∧ c.shouldRouteAql ∧ c.prepared.isNone) ∧
    (∃ actions adoptions c more later last, Runs step (fun _ action => action.isModelReset = false)
      (new .pm4Ib .auto) actions adoptions c ∧ c.state = .fallback ∧
      Runs step (fun _ action => action.isModelReset = false) c more later last ∧ last.shouldRoutePm4) ∧
    (∃ actions adoptions c, Runs step (fun _ action => action.isModelReset = false)
      (new .aqlPackets .auto) actions adoptions c ∧ c.shouldRouteAql ∧ c.prepared.isNone) := by
  refine ⟨?_, ?_, ?_⟩
  · refine ⟨[] ++ [.observeShadow passing] ++ [.observeShadow passing] ++ [.installPreparedPlan], _, _,
      ((Runs.nil.snoc ?_ rfl).snoc ?_ rfl).snoc ?_ rfl, ?_, ?_⟩ <;> decide +kernel
  · refine ⟨[] ++ [.recordHipLaunch (plainLaunch "k") .unknown] ++ [.poison "failed"], _, _,
      [] ++ [.preparePm4Prefix 1 false none], _, _, (Runs.nil.snoc ?_ rfl).snoc ?_ rfl, rfl,
      Runs.nil.snoc ?_ rfl, rfl⟩ <;> rfl
  · refine ⟨[] ++ [.recordHipLaunch (plainLaunch "k") .unknown] ++ [.preparePm4Prefix 1 false none], _, _,
      (Runs.nil.snoc ?_ rfl).snoc ?_ rfl, ?_, ?_⟩ <;> rfl

end ReplayController
end Hipscope.Replay.Controller

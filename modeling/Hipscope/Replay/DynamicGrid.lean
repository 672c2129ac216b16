import Hipscope.Pm4.Patch
import Hipscope.Replay.SingleIb

/-! Position-bound grids: before each submission the dimensions of the launches
with a binding are patched in the retained buffer. -/
namespace Hipscope.Replay
open Redline Pm4

inductive GridError where
  | invalidBinding (axis divisor : ℕ)
  | extentOverflow
  | unitsExceedU32 (units : ℕ)
  | gridOverflow (axis workgroups workgroup : ℕ)
  | kernargTooShort
  | replay (error : Pm4ReplayError)
  deriving DecidableEq

/-- One axis replaced. -/
def setAxis (d : Dim3) (axis value : ℕ) : Dim3 :=
  match axis with
  | 0 => { d with x := value }
  | 1 => { d with y := value }
  | _ => { d with z := value }

def axisOf (d : Dim3) (axis : ℕ) : ℕ := d.axes.getD axis 0

/-- The recorded grid narrowed to the decode position. -/
def ReplayGridBinding.bind (binding : ReplayGridBinding) (position : ℕ) (recorded : Dim3) :
    Except GridError Dim3 :=
  match binding with
  | .positionCeilDiv axis addend divisor =>
    if axis ≥ 3 ∨ divisor = 0 then .error (.invalidBinding axis divisor)
    else if position + addend ≥ 2 ^ 64 then .error .extentOverflow
    else
      let units := max ((position + addend + (divisor - 1)) / divisor) 1
      if units ≥ 2 ^ 32 then .error (.unitsExceedU32 units)
      else .ok (setAxis recorded axis (min units (axisOf recorded axis)))

/-- A launch whose grid follows the position, with the dispatch it patches. -/
structure DynamicGrid where
  dispatch : ℕ
  binding : ReplayGridBinding
  recorded : Dim3
  workgroup : Dim3

structure PreparedPm4Replay where
  graph : SingleQueuePm4Ib
  kernargs : List Aql.KernargBuffer
  dynamicGdnFrames : List ℕ
  dynamicGrids : List DynamicGrid
  architecture : Pm4Architecture

inductive Pm4PrepareError where
  | lowering (error : PrepareError)
  | graph (error : Pm4ReplayError)
  | build (error : Pm4BuildError)

def liftError {ε ε' α : Type} (wrap : ε → ε') : Except ε α → Except ε' α
  | .ok a => .ok a
  | .error e => .error (wrap e)

def Pm4Commands.isEmpty (commands : Pm4Commands) : Bool := commands.packets.isEmpty

/-- The retained buffer of a stream: every tape carries clock writes, around it
or after every dispatch. -/
def Pm4Commands.createGraph (dispatchProfile : Bool) (timestamps : ℕ) (commands : Pm4Commands) :
    Except Pm4PrepareError SingleQueuePm4Ib :=
  if commands.isEmpty then .error (.graph .emptyGraph)
  else match commands with
    | .legacy _ commands _ => liftError .graph
        (SingleQueuePm4Ib.createEncoded (commands.withGpuTimestamps timestamps (timestamps + 8)).dwords)
    | .gfx12 commands =>
      if dispatchProfile then do
        let timed ← liftError .build (withPerDispatchTimestamps commands.dwords timestamps)
        liftError .graph (SingleQueuePm4Ib.createEncoded timed)
      else liftError .graph
        (SingleQueuePm4Ib.createEncoded (commands.withGpuTimestamps timestamps (timestamps + 8)).dwords)

/-- Bindings are kept by recorded index. -/
def dynamicGrids (recorded : List RecordedHipLaunch) : List DynamicGrid :=
  recorded.zipIdx.filterMap fun (launch, index) =>
    launch.gridBinding.map fun binding => ⟨index, binding, launch.grid, launch.block⟩

def dynamicGdnFrames (recorded : List RecordedHipLaunch) : List ℕ :=
  recorded.zipIdx.filterMap fun (launch, index) =>
    if frameKernel launch.kernel then some index else none

def preparePm4 (env : Pm4Environment) (recorded : List RecordedHipLaunch) (count : ℕ)
    (dispatchProfile : Bool) (timestamps : ℕ) : Except Pm4PrepareError PreparedPm4Replay := do
  let ib ← liftError .lowering (prepareSingleIb env recorded count)
  let graph ← ib.commands.createGraph dispatchProfile timestamps
  return ⟨graph, ib.tape.map TapeLaunch.kernarg, dynamicGdnFrames (recorded.take count),
    dynamicGrids (recorded.take count), env.settings.architecture⟩

/-- One replay: the decode position, the frame numbers handed out meanwhile, and
whether the submission completes. -/
structure ReplayStep where
  position : ℕ
  reserve : ℕ → UInt32
  completes : Bool

def patchFrames (reserve : ℕ → UInt32) :
    List (ℕ × ℕ) → List Aql.KernargBuffer → Except GridError Unit × List Aql.KernargBuffer
  | [], kernargs => (.ok (), kernargs)
  | (dispatch, frame) :: frames, kernargs =>
    match kernargs[dispatch]? with
    | none => (.error .kernargTooShort, kernargs)
    | some kernarg =>
      if kernarg.bytes.length < 80 then (.error .kernargTooShort, kernargs)
      else patchFrames reserve frames (kernargs.set dispatch
        { kernarg with bytes := Aql.writeAt kernarg.bytes 76 (toLeBytes 4 (reserve frame).toNat) })

/-- Work-items on GFX12, work-groups before. -/
def nativeDimensions (architecture : Pm4Architecture) (workgroups workgroup : Dim3) :
    Except GridError Dim3 :=
  if architecture = .gfx12 then
    match (workgroups.axes.zip workgroup.axes).zipIdx.findSome? fun ((count, size), axis) =>
        if count * size ≥ 2 ^ 32 then some (GridError.gridOverflow axis count size) else none with
    | some error => .error error
    | none => .ok ⟨workgroups.x * workgroup.x, workgroups.y * workgroup.y, workgroups.z * workgroup.z⟩
  else .ok workgroups

def patchGrid (architecture : Pm4Architecture) (position : ℕ) (grid : DynamicGrid)
    (graph : SingleQueuePm4Ib) : Except GridError SingleQueuePm4Ib := do
  let workgroups ← grid.binding.bind position grid.recorded
  let dims ← nativeDimensions architecture workgroups grid.workgroup
  liftError .replay (graph.patchDispatchDimensions grid.dispatch (UInt32.ofNat dims.x)
    (UInt32.ofNat dims.y) (UInt32.ofNat dims.z))

/-- The grids in order; those before a failing one stay patched. -/
def bindGrids (architecture : Pm4Architecture) (position : ℕ) :
    List DynamicGrid → SingleQueuePm4Ib → Except GridError Unit × SingleQueuePm4Ib
  | [], graph => (.ok (), graph)
  | grid :: grids, graph =>
    match patchGrid architecture position grid graph with
    | .error error => (.error error, graph)
    | .ok graph => bindGrids architecture position grids graph

/-- A replay and the buffer it submits, if it gets that far. -/
def PreparedPm4Replay.replayAndWait (replay : PreparedPm4Replay) (step : ReplayStep) :
    PreparedPm4Replay × Option (List UInt8) :=
  let (framed, kernargs) := patchFrames step.reserve replay.dynamicGdnFrames.zipIdx replay.kernargs
  match framed with
  | .error _ => ({ replay with kernargs := kernargs }, none)
  | .ok () =>
    let (bound, graph) := bindGrids replay.architecture step.position replay.dynamicGrids replay.graph
    match bound with
    | .error _ => ({ replay with kernargs := kernargs, graph := graph }, none)
    | .ok () =>
      if graph.usable then
        ({ replay with kernargs := kernargs, graph := { graph with usable := step.completes } },
          some graph.indirect)
      else ({ replay with kernargs := kernargs, graph := graph }, none)

end Hipscope.Replay

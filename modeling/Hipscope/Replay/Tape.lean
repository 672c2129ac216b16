import Hipscope.Replay.EmissionOrder
import Hipscope.Replay.Reorder

/-! Lowering a captured launch list to one retained indirect buffer. -/
namespace Hipscope.Replay
open Redline Pm4 Queue

section Kernarg

def implicitBytes : ℕ := 256

/-- The explicit argument bytes of a loaded kernel, and whether the implicit
suffix follows them. -/
def validateLoaderKernarg (launch : RecordedHipLaunch) (loaderBytes : ℕ) :
    Except PrepareError (ℕ × Bool) :=
  let captured := launch.kernarg.length
  if loaderBytes ≤ captured then
    if (launch.kernarg.drop loaderBytes).any (· ≠ 0) then
      .error (.loaderDiscardsBytes loaderBytes captured)
    else .ok (loaderBytes, false)
  else if loaderBytes < implicitBytes then .error (.loaderBelowImplicit loaderBytes captured)
  else
    let explicit := loaderBytes - implicitBytes
    if explicit > captured then .error (.loaderExceedsCaptured explicit captured)
    else if (launch.kernarg.drop explicit).any (· ≠ 0) then
      .error (.loaderDiscardsBytes explicit captured)
    else .ok (explicit, true)

def put (bytes : List UInt8) (offset width value : ℕ) : Except PrepareError (List UInt8) :=
  if offset + width > bytes.length then .error (.kernargWrite offset (offset + width))
  else .ok (Aql.writeAt bytes offset (toLeBytes width value))

def putAll (bytes : List UInt8) (writes : List (ℕ × ℕ × ℕ)) : Except PrepareError (List UInt8) :=
  writes.foldlM (fun bytes (offset, width, value) => put bytes offset width value) bytes

/-- Grid, group sizes, remainders, dimensions and dynamic local memory of the
implicit arguments. -/
def implicitWrites (launch : RecordedHipLaunch) (base : ℕ) : List (ℕ × ℕ × ℕ) :=
  let dimensions := if launch.grid.z ≠ 1 ∨ launch.block.z ≠ 1 then 3
    else if launch.grid.y ≠ 1 ∨ launch.block.y ≠ 1 then 2 else 1
  (launch.grid.axes.zip launch.block.axes).zipIdx.flatMap (fun ((grid, block), axis) =>
    [(base + axis * 4, 4, grid), (base + 12 + axis * 2, 2, block), (base + 18 + axis * 2, 2, 0)]) ++
    [(base + 64, 2, dimensions), (base + 120, 4, launch.sharedMem)]

def blockError (symbol : String) (block : Dim3) : Option PrepareError :=
  block.axes.findSome? fun dimension =>
    if dimension ≥ 2 ^ 16 then some (.workgroupExceedsU16 symbol dimension) else none

def populateKernarg (destination : Aql.KernargBuffer) (launch : RecordedHipLaunch)
    (loaderBytes : ℕ) : Except PrepareError Aql.KernargBuffer := do
  let (base, hasImplicit) ← validateLoaderKernarg launch loaderBytes
  if destination.bytes.length ≠ loaderBytes then
    .error (.destinationMismatch launch.kernel destination.bytes.length loaderBytes)
  else
    let bytes := Aql.writeAt (List.replicate loaderBytes 0) 0 (launch.kernarg.take base)
    if !hasImplicit then return { destination with bytes := bytes }
    else match blockError launch.kernel launch.block with
      | some error => .error error
      | none => do
        let bytes ← putAll bytes (implicitWrites launch base)
        return { destination with bytes := bytes }

end Kernarg

/-- What preparation gets from the device, the loader and the configuration. -/
structure Pm4Environment where
  device : Aql.GpuDevice
  pool : Aql.KernargPool
  /-- The kernel a symbol of a code object resolves to. -/
  load : String → String → Except String Kernel
  settings : Pm4Settings
  /-- Streams of this device wait by release and wait packets. -/
  releaseWait : Bool
  reorderWindow : Option ℕ

def frameKernel (kernel : String) : Bool := kernel == "gated_delta_net_q8_fast" || compactGdn kernel

def lowerLaunch (env : Pm4Environment) (index : ℕ) (launch : RecordedHipLaunch) :
    Except PrepareError TapeLaunch :=
  let symbol := launch.kernel ++ ".kd"
  match launch.artifact with
  | none => .error (.noArtifact launch.kernel)
  | some artifact => match env.load artifact symbol with
    | .error detail => .error (.load symbol detail)
    | .ok kernel => match env.pool.allocateFor index kernel.metadata with
      | .error error => .error (.allocate symbol error)
      | .ok kernarg => do
        let kernarg ← populateKernarg kernarg launch kernel.metadata.kernargSegmentSize
        match blockError symbol launch.block with
        | some error => .error error
        | none => match LaunchGeometry.fromHipWorkgroups launch.grid launch.block with
          | .error error => .error (.geometry symbol error)
          | .ok geometry => match env.device.validateGeometry geometry with
            | .error error => .error (.geometryLimit symbol error)
            | .ok () =>
              if frameKernel launch.kernel ∧ kernel.metadata.kernargSegmentSize < 80 then
                .error (.gdnKernargTooShort symbol)
              else return ⟨index, launch, kernel, geometry, kernarg⟩

def lowerTape (env : Pm4Environment) (recorded : List RecordedHipLaunch) :
    Except PrepareError (List TapeLaunch) :=
  recorded.zipIdx.mapM fun (launch, index) => lowerLaunch env index launch

/-- The order in which the launches are emitted. -/
def emissionOrder (env : Pm4Environment) (recorded : List RecordedHipLaunch) : List ℕ :=
  match env.reorderWindow with
  | none => List.range recorded.length
  | some window => pm4WidthReorder recorded window

/-- The fence word follows the kernarg buffers in the pool. -/
def dependencyMode (env : Pm4Environment) (request : ℕ) :
    Except PrepareError LegacyDependencyMode :=
  if env.releaseWait then
    match env.pool.allocateBytes request 4 4 with
    | .error error => .error (.fence error)
    | .ok fence =>
      if fence.address = 0 ∨ fence.address % 4 ≠ 0 then .error (.fenceAddress fence.address)
      else .ok (.releaseWait fence.address 0)
  else .ok .csPartialFlush

def pick (tape : List TapeLaunch) (indices : List ℕ) : Except PrepareError (List TapeLaunch) :=
  indices.mapM fun index => match tape[index]? with
    | none => .error .indexOutOfRange
    | some item => .ok item

/-- The single-buffer stream: an epoch reset, the entry acquire, the launches
with their boundaries, and a final wait. -/
def singleIbCommands (settings : Pm4Settings) (mode : LegacyDependencyMode)
    (items : List TapeLaunch) : Except PrepareError Pm4Commands := do
  let reset ← liftCommand (Pm4Commands.newWithDependency settings mode).emitEntrySentinelReset
  let emitted ← emitLaunches settings .waitPolicy none .default (reset.acquireEntry settings) items
  liftCommand emitted.waitComputeIdle

structure SingleIb where
  tape : List TapeLaunch
  order : List ℕ
  commands : Pm4Commands

def prepareSingleIb (env : Pm4Environment) (recorded : List RecordedHipLaunch) (count : ℕ) :
    Except PrepareError SingleIb :=
  if recorded = [] then .error .noCapturedLaunches
  else if count = 0 ∨ count > recorded.length then .error (.countOutOfRange count recorded.length)
  else do
    let tape ← lowerTape env (recorded.take count)
    let order := emissionOrder env (recorded.take count)
    let mode ← dependencyMode env count
    let items ← pick tape order
    let commands ← singleIbCommands env.settings mode items
    return ⟨tape, order, commands⟩

end Hipscope.Replay

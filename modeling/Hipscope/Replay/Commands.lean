import Hipscope.Pm4.Gfx10
import Hipscope.Pm4.Gfx12
import Hipscope.Replay.Access

/-! One command stream of a retained replay, for either register map, and the
policies that decide which boundaries stand between its dispatches. -/
namespace Hipscope.Replay
open Redline Pm4

inductive Pm4Architecture where
  | gfx10
  | gfx11
  | gfx12
  deriving DecidableEq, Repr

/-- How a legacy stream waits for its own dispatches. -/
inductive LegacyDependencyMode where
  | csPartialFlush
  | releaseWait (address nextEpoch : ℕ)
  deriving DecidableEq, Repr

inductive Pm4RegisterPolicy where
  | legacy
  | static
  | stateful
  deriving DecidableEq, Repr

inductive Gfx11EntryAcquirePolicy where
  | system
  | agent
  | vmem
  | none
  deriving DecidableEq, Repr

inductive Pm4WaitPolicy where
  | allowlist
  | resourceAudit
  | resource
  deriving DecidableEq, Repr

inductive Pm4MidAcquirePolicy where
  | conservative
  | entryOnly
  | requiredOnly
  | withoutRepeatInterleave
  | withoutFusedSiluRotate
  | withoutMqRotate
  | withoutRope
  deriving DecidableEq, Repr

def startsWith (kernel pattern : String) : Bool := pattern.toList.isPrefixOf kernel.toList

def compactGdn (kernel : String) : Bool := startsWith kernel "gated_delta_net_q8_compact"

def requiredMidAcquire (previous current : String) : Bool :=
  compactGdn previous || compactGdn current ||
    (previous == "fused_silu_mul_mq_rotate" && startsWith current "gemv_hfq4g256_residual") ||
    previous == "mq_rotate_x" ||
    ["repeat_interleave_qk_f32", "rope_partial_halfsplit_f32"].contains previous ||
    ["repeat_interleave_qk_f32", "rope_partial_halfsplit_f32"].contains current

def conservativeMidAcquireExcept (previous current : String) (excluded : Option String) : Bool :=
  compactGdn previous || compactGdn current ||
    (some previous != excluded && ["repeat_interleave_qk_f32", "fused_silu_mul_mq_rotate",
      "mq_rotate_x", "rope_partial_halfsplit_f32"].contains previous) ||
    (some current != excluded && ["repeat_interleave_qk_f32", "fused_silu_mul_mq_rotate",
      "rope_partial_halfsplit_f32"].contains current)

def Pm4MidAcquirePolicy.acquireBetween (policy : Pm4MidAcquirePolicy) (previous current : String) :
    Bool :=
  match policy with
  | conservative => conservativeMidAcquireExcept previous current none
  | entryOnly => false
  | requiredOnly => requiredMidAcquire previous current
  | withoutRepeatInterleave =>
    conservativeMidAcquireExcept previous current (some "repeat_interleave_qk_f32")
  | withoutFusedSiluRotate =>
    conservativeMidAcquireExcept previous current (some "fused_silu_mul_mq_rotate")
  | withoutMqRotate => conservativeMidAcquireExcept previous current (some "mq_rotate_x")
  | withoutRope => conservativeMidAcquireExcept previous current (some "rope_partial_halfsplit_f32")

/-- Consumers that may follow the sigmoid-scaled residual without a wait. -/
def residualSiblings : List String :=
  ["gemv_hfq4g256_moe_gate_k8_indexed_k2048_gfx1151",
    "gemv_hfq4g256_moe_up_k8_indexed_k2048_gfx1151",
    "gemv_hfq4g256_moe_gate_up_k8_indexed_paired_waves_k2048_gfx1151",
    "gemv_hfq4g256_moe_gate_up_k8_indexed", "gemv_hfq4g256_moe_gate_up_k8_indexed_cpol_dlc",
    "gemv_hfq4g256_moe_gate_up_k8_indexed_cpol_glc",
    "gemv_hfq4g256_moe_gate_up_k8_indexed_cpol_slc",
    "gemv_hfq4g256_moe_gate_up_k8_indexed_k2048",
    "gemv_hfq4g256_moe_gate_up_k8_indexed_low_vgpr",
    "gemv_hfq4g256_moe_gate_up_k8_indexed_pair_slc",
    "gemv_hfq4g256_moe_gate_up_k8_indexed_rank_interleave",
    "gemv_hfq4g256_moe_gate_up_k8_indexed_wg2"]

def independentSibling (previous current : String) : Bool :=
  [("fused_sigmoid_alpha_gate_f32", "conv1d_silu_split_f32"), ("rmsnorm_f32", "rmsnorm_f32"),
    ("kv_cache_write_q8_0", "kv_cache_write_q8_0"),
    ("gemv_hfq4g256_moe_gate_k8_indexed_k2048_gfx1151",
      "gemv_hfq4g256_moe_up_k8_indexed_k2048_gfx1151")].contains (previous, current) ||
    (previous == "gemv_hfq4g256_residual_sigmoid_scaled_gpu" && residualSiblings.contains current)

inductive Pm4CommandError where
  | gfx10 (error : Gfx10Pm4BuildError)
  | gfx12 (error : Pm4BuildError)
  | entrySentinel (nextEpoch : ℕ)
  | epochOverflow
  deriving DecidableEq

inductive Pm4Commands where
  | legacy (architecture : Pm4Architecture) (commands : Gfx10Pm4CommandBuffer)
      (dependencyMode : LegacyDependencyMode)
  | gfx12 (commands : Gfx12Pm4CommandBuffer)

/-- What is fixed for all streams of one preparation. -/
structure Pm4Settings where
  architecture : Pm4Architecture
  registerPolicy : Pm4RegisterPolicy
  dispatchInitiatorPolicy : Gfx10DispatchInitiatorPolicy
  dispatchInterleave : Option Gfx11DispatchInterleave
  resourceLimitsPolicy : Gfx11ComputeResourceLimitsPolicy
  entryAcquirePolicy : Gfx11EntryAcquirePolicy
  midAcquirePolicy : Pm4MidAcquirePolicy
  waitPolicy : Pm4WaitPolicy
  gfx12GcrTrim : Bool
  gfx11VmemAcquire : Bool
  /-- The launch's code object is certified to read mutable memory only through
  vector loads. -/
  vmemOnlyConsumer : RecordedHipLaunch → Bool

namespace Pm4Commands

def packets : Pm4Commands → List Packet
  | legacy _ commands _ => commands.packets
  | gfx12 commands => commands.packets

def newWithDependency (settings : Pm4Settings) (mode : LegacyDependencyMode) : Pm4Commands :=
  match settings.architecture with
  | .gfx12 => .gfx12 (match settings.registerPolicy with
    | .legacy => .new
    | .static => .newStaticStateful
    | .stateful => .newStateful)
  | architecture =>
    let commands : Gfx10Pm4CommandBuffer := match settings.registerPolicy with
      | .legacy => .new
      | .static | .stateful => .newStateful
    .legacy architecture (((commands.withDispatchInitiatorPolicy
      settings.dispatchInitiatorPolicy).withDispatchInterleave
      settings.dispatchInterleave).withResourceLimitsPolicy settings.resourceLimitsPolicy) mode

def new (settings : Pm4Settings) : Pm4Commands := newWithDependency settings .csPartialFlush

def acquireEntry (settings : Pm4Settings) : Pm4Commands → Pm4Commands
  | legacy architecture commands mode =>
    .legacy architecture (match settings.entryAcquirePolicy with
      | .system => commands.acquireSystem
      | .agent => commands.acquireInterNodeSameAgent
      | .vmem => commands.acquireInterNodeVmem
      | .none => commands) mode
  | gfx12 commands =>
    .gfx12 (if settings.gfx12GcrTrim then commands.acquireSystemGfx12 else commands.acquireSystem)

/-- Epoch zero before the entry acquire, so that no replay sees the last epoch
of the one before. -/
def emitEntrySentinelReset : Pm4Commands → Except Pm4CommandError Pm4Commands
  | legacy architecture commands (.releaseWait address nextEpoch) =>
    if nextEpoch ≠ 0 then .error (.entrySentinel nextEpoch)
    else .ok (.legacy architecture (commands.dependencyFence address 0)
      (.releaseWait address nextEpoch))
  | commands => .ok commands

def acquireInterNode (settings : Pm4Settings) (vmemOnly : Bool) : Pm4Commands → Pm4Commands
  | legacy architecture commands mode =>
    .legacy architecture
      (if vmemOnly then commands.acquireInterNodeVmem else commands.acquireInterNodeSameAgent) mode
  | gfx12 commands =>
    .gfx12 (if settings.gfx12GcrTrim then commands.acquireInterNodeGfx12 else commands.acquireSystem)

def requiresDependencyAcquire : Pm4Commands → Bool
  | legacy _ _ _ => true
  | gfx12 _ => false

def waitComputeIdle : Pm4Commands → Except Pm4CommandError Pm4Commands
  | legacy architecture commands (.releaseWait address nextEpoch) =>
    if nextEpoch + 1 ≥ 2 ^ 32 then .error .epochOverflow
    else .ok (.legacy architecture (commands.dependencyFence address (UInt32.ofNat (nextEpoch + 1)))
      (.releaseWait address (nextEpoch + 1)))
  | legacy architecture commands .csPartialFlush =>
    .ok (.legacy architecture commands.waitComputeIdle .csPartialFlush)
  | gfx12 commands => .ok (.gfx12 commands.waitComputeIdle)

def dispatch (kernel : Kernel) (geometry : LaunchGeometry) (dynamicGroupBytes kernargAddress : ℕ) :
    Pm4Commands → Except Pm4CommandError Pm4Commands
  | legacy architecture commands mode =>
    match commands.dispatch kernel geometry dynamicGroupBytes kernargAddress with
    | .error error => .error (.gfx10 error)
    | .ok commands => .ok (.legacy architecture commands mode)
  | gfx12 commands =>
    match commands.dispatch kernel geometry dynamicGroupBytes kernargAddress with
    | .error error => .error (.gfx12 error)
    | .ok commands => .ok (.gfx12 commands)

end Pm4Commands
end Hipscope.Replay

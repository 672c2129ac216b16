import Hipscope.Lists.Traverse
import Hipscope.Queue.Stages
import Hipscope.Redline.Ir

/-! AQL packets and what a queue does with them. A signal starts at one and is
complete at zero. -/
namespace Hipscope.Redline
open Queue Hipscope.Lists

inductive FenceScope where
  | none
  | agent
  | system
  deriving DecidableEq, Repr

/-- The two-bit header encoding of a scope. -/
def FenceScope.toNat : FenceScope → ℕ
  | none => 0
  | agent => 1
  | system => 2

/-- `b` is at least as wide as `a`. -/
def FenceScope.le (a b : FenceScope) : Prop := a.toNat ≤ b.toNat

instance : DecidableRel FenceScope.le := fun a b => inferInstanceAs (Decidable (a.toNat ≤ b.toNat))

def maxScope (left right : FenceScope) : FenceScope :=
  if left.toNat ≥ right.toNat then left else right

theorem le_maxScope_left (a b : FenceScope) : a.le (maxScope a b) := by
  cases a <;> cases b <;> decide

/-- `barrier` makes the packet wait for all earlier packets of its queue. -/
structure HeaderPolicy where
  barrier : Bool
  acquire : FenceScope
  release : FenceScope
  deriving DecidableEq, Repr

namespace HeaderPolicy

def recordedDispatch : HeaderPolicy := ⟨true, .system, .system⟩
def crossQueueBarrier : HeaderPolicy := ⟨true, .system, .system⟩
def twoQueueDependency : HeaderPolicy := ⟨true, .none, .none⟩
def twoQueueHostTerminal : HeaderPolicy := ⟨true, .none, .system⟩

end HeaderPolicy

structure LaunchGeometry where
  gridWorkitems : Dim3
  workgroup : Dim3
  dimensions : ℕ
  deriving DecidableEq

/-- Loader-derived fields of a kernel-dispatch packet. -/
structure KernelMetadata where
  kernelObject : ℕ
  kernargSegmentSize : ℕ
  kernargSegmentAlignment : ℕ
  groupSegmentSize : ℕ
  privateSegmentSize : ℕ
  dynamicCallstack : Bool
  deriving DecidableEq

inductive PacketError where
  | zeroDimension (axis : ℕ)
  | workgroupExceedsGrid (axis workgroup grid : ℕ)
  | inactiveDimensionNotOne (axis : ℕ)
  | gridDimensionOverflow (axis workgroups workgroup : ℕ)
  | nullKernelObject
  | dynamicCallstackNeedsPrivateSize
  | nullKernarg (required : ℕ)
  | dynamicGroupSegmentOverflow (staticBytes dynamicBytes : ℕ)
  | tooManyBarrierDependencies (count capacity : ℕ)
  deriving DecidableEq

namespace LaunchGeometry

def axisError (grid workgroup : Dim3) : Option PacketError :=
  (grid.axes.zip workgroup.axes).zipIdx.findSome? fun ((grid, workgroup), axis) =>
    if grid = 0 ∨ workgroup = 0 then some (.zeroDimension axis)
    else if workgroup > grid then some (.workgroupExceedsGrid axis workgroup grid)
    else none

def new (grid workgroup : Dim3) : Except PacketError LaunchGeometry :=
  match axisError grid workgroup with
  | some error => .error error
  | none =>
    let dimensions := if grid.z ≠ 1 ∨ workgroup.z ≠ 1 then 3
      else if grid.y ≠ 1 ∨ workgroup.y ≠ 1 then 2 else 1
    if dimensions < 3 ∧ (grid.z ≠ 1 ∨ workgroup.z ≠ 1) then .error (.inactiveDimensionNotOne 2)
    else if dimensions < 2 ∧ (grid.y ≠ 1 ∨ workgroup.y ≠ 1) then .error (.inactiveDimensionNotOne 1)
    else .ok ⟨grid, workgroup, dimensions⟩

/-- Work-group counts become total work-items. -/
def fromWorkgroups (workgroups workgroup : Dim3) : Except PacketError LaunchGeometry :=
  match (workgroups.axes.zip workgroup.axes).zipIdx.findSome? fun ((count, size), axis) =>
      if count * size ≥ 2 ^ 32 then some (PacketError.gridDimensionOverflow axis count size) else none with
  | some error => .error error
  | none => new ⟨workgroups.x * workgroup.x, workgroups.y * workgroup.y, workgroups.z * workgroup.z⟩
      workgroup

/-- A HIP launch always supplies three work-group identities. -/
def fromHipWorkgroups (workgroups workgroup : Dim3) : Except PacketError LaunchGeometry := do
  let geometry ← fromWorkgroups workgroups workgroup
  return { geometry with dimensions := 3 }

end LaunchGeometry

/-- What a kernel packet runs: the code and its kernarg segment. -/
structure KernelWords where
  kernelObject : ℕ
  kernargAddress : ℕ
  deriving DecidableEq

/-- A published packet. `job` names the dispatch, signals have type `S`; a
missing completion is the null signal. -/
inductive Packet (K S : Type) where
  | kernel (job : K) (words : KernelWords) (header : HeaderPolicy) (completion : Option S)
  | barrierAnd (header : HeaderPolicy) (dependencies : List S) (completion : Option S)
  deriving DecidableEq

def barrierDependencyCapacity : ℕ := 5

/-- Consecutive pieces of at most `size` elements. -/
def chunks {α : Type} (size : ℕ) (l : List α) : List (List α) := go l.length l
where
  go : ℕ → List α → List (List α)
    | 0, _ => []
    | _ + 1, [] => []
    | fuel + 1, a :: l => (a :: l).take size :: go fuel ((a :: l).drop size)

private theorem chunks_go {α : Type} {size fuel : ℕ} (hs : 0 < size) {l : List α}
    (hl : l.length ≤ fuel) : (chunks.go size fuel l).flatten = l ∧
      ∀ c ∈ chunks.go size fuel l, c.length ≤ size := by
  induction fuel generalizing l with
  | zero =>
    obtain rfl : l = [] := List.eq_nil_of_length_eq_zero (by omega)
    simp [chunks.go]
  | succ fuel ih =>
    cases l with
    | nil => simp [chunks.go]
    | cons a l =>
      obtain ⟨hflat, hlen⟩ := ih (l := (a :: l).drop size) (by
        simp only [List.length_cons, List.length_drop] at hl ⊢
        omega)
      refine ⟨by rw [chunks.go, List.flatten_cons, hflat, List.take_append_drop], ?_⟩
      intro c hc
      rcases List.mem_cons.mp hc with rfl | hc
      · exact List.length_take_le _ _
      · exact hlen c hc

theorem chunks_flatten {α : Type} (size : ℕ) (hs : 0 < size) (l : List α) :
    (chunks size l).flatten = l :=
  (chunks_go hs le_rfl).1

theorem chunks_length {α : Type} {size : ℕ} (hs : 0 < size) {l c : List α}
    (hc : c ∈ chunks size l) : c.length ≤ size :=
  (chunks_go hs le_rfl).2 c hc

namespace Packet
variable {Q K S : Type}

def header : Packet K S → HeaderPolicy
  | kernel _ _ header _ | barrierAnd header _ _ => header

def completion : Packet K S → Option S
  | kernel _ _ _ completion | barrierAnd _ _ completion => completion

def newKernel (metadata : KernelMetadata) (dynamicGroupBytes kernargAddress : ℕ) (job : K)
    (completion : Option S) (policy : HeaderPolicy) : Except PacketError (Packet K S) :=
  if metadata.kernelObject = 0 then .error .nullKernelObject
  else if metadata.dynamicCallstack then .error .dynamicCallstackNeedsPrivateSize
  else if metadata.kernargSegmentSize ≠ 0 ∧ kernargAddress = 0 then
    .error (.nullKernarg metadata.kernargSegmentSize)
  else if metadata.groupSegmentSize + dynamicGroupBytes ≥ 2 ^ 32 then
    .error (.dynamicGroupSegmentOverflow metadata.groupSegmentSize dynamicGroupBytes)
  else .ok (kernel job ⟨metadata.kernelObject, kernargAddress⟩ policy completion)

theorem newKernel_ok {metadata : KernelMetadata} {dynamicGroupBytes kernargAddress : ℕ} {job : K}
    {completion : Option S} {policy : HeaderPolicy} {packet : Packet K S}
    (h : newKernel metadata dynamicGroupBytes kernargAddress job completion policy = .ok packet) :
    packet = .kernel job ⟨metadata.kernelObject, kernargAddress⟩ policy completion := by
  unfold newKernel at h
  split_ifs at h
  cases h
  rfl

def newBarrierAnd (dependencies : List S) (completion : Option S) (policy : HeaderPolicy) :
    Except PacketError (Packet K S) :=
  if dependencies.length > barrierDependencyCapacity then
    .error (.tooManyBarrierDependencies dependencies.length barrierDependencyCapacity)
  else .ok (barrierAnd policy dependencies completion)

/-- The barrier bit, as a command of the queue. -/
def barrierEntries (q : Q) (h : HeaderPolicy) : List (Entry Q (Option K) S ℕ) :=
  if h.barrier then [⟨q, none, .drain⟩] else []

/-- What the packet processor does: honour the barrier bit, then launch the
kernel or wait for the dependencies and signal. -/
def entries (q : Q) : Packet K S → List (Entry Q (Option K) S ℕ)
  | kernel job _ header completion =>
    barrierEntries q header ++ [⟨q, some job, .launch (completion.map fun s => (s, 0))⟩]
  | barrierAnd header dependencies completion =>
    barrierEntries q header ++ (dependencies.map fun s => ⟨q, none, .await s 0⟩) ++
      completion.toList.map fun s => ⟨q, none, .store s 0⟩

theorem mem_barrierEntries {q : Q} {h : HeaderPolicy} {e : Entry Q (Option K) S ℕ}
    (he : e ∈ barrierEntries q h) : e = ⟨q, none, .drain⟩ := by
  unfold barrierEntries at he
  split at he
  · exact List.mem_singleton.mp he
  · simp at he

theorem mem_barrierAnd {q : Q} {h : HeaderPolicy} {dependencies : List S} {completion : Option S}
    {e : Entry Q (Option K) S ℕ} (he : e ∈ (barrierAnd h dependencies completion).entries q) :
    e = ⟨q, none, .drain⟩ ∨ (∃ s ∈ dependencies, e = ⟨q, none, .await s 0⟩) ∨
      ∃ s ∈ completion, e = ⟨q, none, .store s 0⟩ := by
  simp only [entries, List.mem_append, List.mem_map, Option.mem_toList] at he
  rcases he with (he | ⟨s, hs, rfl⟩) | ⟨s, hs, rfl⟩
  · exact .inl (mem_barrierEntries he)
  · exact .inr (.inl ⟨s, hs, rfl⟩)
  · exact .inr (.inr ⟨s, hs, rfl⟩)

end Packet

/-- The commands of packets published on their queues, in publication order. -/
def publish {Q K S : Type} (packets : List (Q × Packet K S)) : List (Entry Q (Option K) S ℕ) :=
  packets.flatMap fun p => p.2.entries p.1

/-- The jobs of a command log, in publication order. -/
def jobs {Q K S : Type} (L : List (Entry Q (Option K) S ℕ)) : List K := L.filterMap Entry.tag

@[simp] theorem jobs_append {Q K S : Type} (L M : List (Entry Q (Option K) S ℕ)) :
    jobs (L ++ M) = jobs L ++ jobs M :=
  List.filterMap_append

@[simp] theorem jobs_barrierEntries {Q K S : Type} (q : Q) (h : HeaderPolicy) :
    jobs (Packet.barrierEntries q h : List (Entry Q (Option K) S ℕ)) = [] := by
  unfold Packet.barrierEntries
  split <;> rfl

@[simp] theorem writes_barrierEntries {Q K S : Type} (q : Q) (h : HeaderPolicy) :
    writes (Packet.barrierEntries q h : List (Entry Q (Option K) S ℕ)) = [] := by
  unfold Packet.barrierEntries
  split <;> rfl

/-- Barrier packets launch nothing. -/
theorem jobs_barrierAnd {Q K S : Type} (q : Q) (h : HeaderPolicy) (dependencies : List S)
    (completion : Option S) :
    jobs ((Packet.barrierAnd h dependencies completion : Packet K S).entries q) = [] := by
  refine List.filterMap_eq_nil_iff.mpr fun e he => ?_
  rcases Packet.mem_barrierAnd he with rfl | ⟨s, -, rfl⟩ | ⟨s, -, rfl⟩ <;> rfl

theorem writes_barrierAnd {Q K S : Type} (q : Q) (h : HeaderPolicy) (dependencies : List S)
    (completion : Option S) :
    writes ((Packet.barrierAnd h dependencies completion : Packet K S).entries q) =
      completion.toList.map fun s => (s, 0) := by
  have hawaits : writes (dependencies.map fun s => (⟨q, none, .await s 0⟩ : Entry Q (Option K) S ℕ)) =
      [] := by
    refine List.filterMap_eq_nil_iff.mpr fun e he => ?_
    obtain ⟨s, -, rfl⟩ := List.mem_map.mp he
    rfl
  rw [Packet.entries, writes_append, writes_append, writes_barrierEntries, hawaits]
  cases completion <;> rfl

theorem once_job {Q K S : Type} {L : List (Entry Q (Option K) S ℕ)} (h : (jobs L).Nodup) (k : K) :
    Once L (some k) :=
  fun _ _ _ _ hd he hdt het => index_unique (c := k) h hd he hdt het

section Publish
variable {Q K S : Type}

@[simp] theorem publish_append (P R : List (Q × Packet K S)) :
    publish (P ++ R) = publish P ++ publish R :=
  List.flatMap_append

/-- The tagged commands are the launches of kernel packets. -/
theorem tagged_iff_launch {packets : List (Q × Packet K S)} {e : Entry Q (Option K) S ℕ}
    (he : e ∈ publish packets) : (∃ k, e.tag = some k) ↔ ∃ done, e.cmd = .launch done := by
  obtain ⟨⟨q, packet⟩, -, he⟩ := List.mem_flatMap.mp he
  cases packet with
  | kernel job words header completion =>
    rcases List.mem_append.mp he with he | he
    · simp [Packet.mem_barrierEntries he]
    · simp [List.mem_singleton.mp he]
  | barrierAnd header dependencies completion =>
    rcases Packet.mem_barrierAnd he with rfl | ⟨s, -, rfl⟩ | ⟨s, -, rfl⟩ <;> simp

/-- Packets have no asynchronous part but the kernels they launch. -/
theorem launch_of_isAsync {packets : List (Q × Packet K S)} {e : Entry Q (Option K) S ℕ}
    (he : e ∈ publish packets) (ha : e.cmd.isAsync = true) : ∃ done, e.cmd = .launch done := by
  obtain ⟨⟨q, packet⟩, -, he⟩ := List.mem_flatMap.mp he
  cases packet with
  | kernel job words header completion =>
    rcases List.mem_append.mp he with he | he
    · simp [Packet.mem_barrierEntries he, Cmd.isAsync] at ha
    · simp [List.mem_singleton.mp he]
  | barrierAnd header dependencies completion =>
    rcases Packet.mem_barrierAnd he with rfl | ⟨s, -, rfl⟩ | ⟨s, -, rfl⟩ <;> simp [Cmd.isAsync] at ha

/-- Barrier-AND packets on one queue that together wait for all signals. -/
def waitPackets (q : Q) (header : HeaderPolicy) (signals : List S) : List (Q × Packet K S) :=
  (chunks barrierDependencyCapacity signals).map fun chunk => (q, .barrierAnd header chunk none)

theorem kernel_notMem_waitPackets {p q : Q} {policy header : HeaderPolicy} {signals : List S} {job : K}
    {words : KernelWords} {completion : Option S} :
    (p, Packet.kernel job words header completion) ∉ waitPackets q policy signals := by
  simp [waitPackets]

/-- Waiting only drains and waits, on its own queue and for its own signals. -/
theorem mem_publish_waitPackets {q : Q} {header : HeaderPolicy} {signals : List S}
    {e : Entry Q (Option K) S ℕ} (he : e ∈ publish (waitPackets q header signals)) :
    e = ⟨q, none, .drain⟩ ∨ ∃ s ∈ signals, e = ⟨q, none, .await s 0⟩ := by
  simp only [publish, waitPackets, List.mem_flatMap, List.mem_map] at he
  obtain ⟨_, ⟨chunk, hchunk, rfl⟩, he⟩ := he
  rcases Packet.mem_barrierAnd he with rfl | ⟨s, hs, rfl⟩ | ⟨s, hs, -⟩
  · exact .inl rfl
  · refine .inr ⟨s, ?_, rfl⟩
    rw [← chunks_flatten barrierDependencyCapacity (by decide) signals]
    exact List.mem_flatten.mpr ⟨chunk, hchunk, hs⟩
  · cases hs

theorem await_mem_waitPackets {q : Q} {header : HeaderPolicy} {signals : List S} {s : S}
    (hs : s ∈ signals) : (⟨q, none, .await s 0⟩ : Entry Q (Option K) S ℕ) ∈
      publish (waitPackets q header signals) := by
  rw [← chunks_flatten barrierDependencyCapacity (by decide) signals] at hs
  obtain ⟨chunk, hchunk, hs⟩ := List.mem_flatten.mp hs
  refine List.mem_flatMap.mpr ⟨_, List.mem_map_of_mem hchunk, ?_⟩
  simp [Packet.entries, hs]

@[simp] theorem jobs_waitPackets (q : Q) (header : HeaderPolicy) (signals : List S) :
    jobs (publish (waitPackets q header signals) : List (Entry Q (Option K) S ℕ)) = [] := by
  refine List.filterMap_eq_nil_iff.mpr fun e he => ?_
  rcases mem_publish_waitPackets he with rfl | ⟨s, -, rfl⟩ <;> rfl

@[simp] theorem writes_waitPackets (q : Q) (header : HeaderPolicy) (signals : List S) :
    writes (publish (waitPackets q header signals) : List (Entry Q (Option K) S ℕ)) = [] := by
  refine List.filterMap_eq_nil_iff.mpr fun e he => ?_
  rcases mem_publish_waitPackets he with rfl | ⟨s, -, rfl⟩ <;> rfl

theorem justified_waitPackets {q : Q} {header : HeaderPolicy} {signals : List S}
    {seen : List (S × ℕ)} (h : ∀ s ∈ signals, (s, 0) ∈ seen) :
    Justified seen (publish (waitPackets q header signals) : List (Entry Q (Option K) S ℕ)) := by
  refine justified_of_awaits_seen fun e he c v hc => ?_
  rcases mem_publish_waitPackets he with rfl | ⟨s, hs, rfl⟩
  · cases hc
  · cases hc
    exact h _ hs

end Publish
end Hipscope.Redline

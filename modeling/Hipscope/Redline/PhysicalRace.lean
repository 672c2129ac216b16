import Hipscope.Redline.PreparedOrder

/-! From logical bytes to physical addresses: accepted bindings keep distinct
resources apart, so the hazard scan also rules out races on device memory. -/
namespace Hipscope.Redline
open Hipscope.Graph

section Recorded

/-- The region lies within a resource of the recorder. -/
def Recorder.InBounds (r : Recorder) (region : DeviceRegion) : Prop :=
  region.resource.owner = r.owner ∧ ∃ entry, r.resources[region.resource.index]? = some entry ∧
    region.end ≤ entry.size

theorem forM_ok {ε α : Type} {f : α → Except ε Unit} {l : List α} (h : l.forM f = .ok ()) :
    ∀ a ∈ l, f a = .ok () := by
  induction l with
  | nil => simp
  | cons a l ih =>
    obtain ⟨⟨⟩, ha, h⟩ := bind_ok h
    intro x hx
    rcases List.mem_cons.mp hx with rfl | hx
    · exact ha
    · exact ih h x hx

namespace Recorder
variable {r : Recorder}

theorem validateRegion_ok {region : DeviceRegion} (h : r.validateRegion region = .ok ()) :
    r.InBounds region := by
  obtain ⟨entry, hentry, h⟩ := bind_ok h
  unfold resourceEntry at hentry
  split at hentry
  · cases hentry
  rename_i howner
  split at hentry
  · rename_i found hfound
    cases hentry
    refine ⟨not_not.mp howner, entry, hfound, ?_⟩
    by_contra hend
    rw [if_pos (by omega)] at h
    cases h
  · cases hentry

/-- Every declared access of every recorded dispatch lies within its resource. -/
def Bounded (r : Recorder) : Prop := ∀ n ∈ r.nodes, ∀ a ∈ n.accesses, r.InBounds a.region

/-- Resources are only ever added. -/
private theorem InBounds.push {region : DeviceRegion} (h : r.InBounds region) (entry : Resource) :
    InBounds { r with resources := r.resources ++ [entry] } region := by
  obtain ⟨howner, found, hfound, hend⟩ := h
  refine ⟨howner, found, ?_, hend⟩
  change (r.resources ++ [entry])[region.resource.index]? = some found
  rw [List.getElem?_append_left (List.getElem?_eq_some_iff.mp hfound).1, hfound]

theorem apply_bounded (h : r.Bounded) (c : Call) : (r.apply c).Bounded := by
  cases c with
  | resource label size =>
    simp only [apply]
    cases hr : r.resource label size with
    | error _ => exact h
    | ok x =>
      obtain ⟨id, r'⟩ := x
      obtain rfl := resource_ok hr
      intro n hn a ha
      exact (h n hn a ha).push _
  | region _ _ _ => exact h
  | dispatch launch accesses =>
    simp only [apply]
    cases hd : r.dispatch launch accesses with
    | error _ => exact h
    | ok x =>
      obtain ⟨id, r'⟩ := x
      obtain ⟨-, -, rfl⟩ := dispatch_ok hd
      obtain ⟨⟨⟩, hregions, -⟩ := bind_ok hd
      intro n hn a ha
      rcases List.mem_append.mp hn with hn | hn
      · exact h n hn a ha
      · obtain rfl := List.mem_singleton.mp hn
        exact validateRegion_ok (r := r) (forM_ok hregions a ha)
  | dependsOn node prerequisite =>
    simp only [apply]
    cases hd : r.dependsOn node prerequisite with
    | error _ => exact h
    | ok r' =>
      obtain ⟨-, -, -, rfl⟩ := dependsOn_ok hd
      exact h

theorem run_bounded (owner : ℕ) (calls : List Call) : (run owner calls).Bounded := by
  unfold run
  induction calls using List.reverseRecOn with
  | nil =>
    intro n hn
    simp [new] at hn
  | append_singleton calls c ih =>
    rw [List.foldl_append]
    exact apply_bounded ih c

end Recorder

/-- The planned resources are the recorded ones. -/
theorem compile_resources {sha256 : List UInt8 → Sha256Digest} {r : Recorder}
    {options : CompileOptions} {plan : CompiledPlan} (h : compile sha256 r options = .ok plan) :
    plan.resources = r.resources.zipIdx.map fun (resource, index) =>
      ⟨⟨r.owner, index⟩, resource.label, resource.size⟩ := by
  obtain ⟨⟨⟩, -, h⟩ := bind_ok h
  obtain ⟨order, -, h⟩ := bind_ok h
  dsimp only at h
  split at h
  · cases h
  · cases h
    rfl

end Recorded

section Bound

/-- The address of a byte of a bound buffer, as the 64-bit word a kernel computes. -/
def ResourceBinding.address (binding : ResourceBinding) (offset : ℕ) : ℕ :=
  (binding.base + offset) % 2 ^ 64

/-- The access reaches the physical byte at `address`. -/
def Access.Touches (bindings : ReplayBindings) (a : Access) (address : ℕ) : Prop :=
  ∃ binding offset, bindings.resource a.region.resource = some binding ∧
    a.region.Contains a.region.resource offset ∧ address = binding.address offset

/-- Two dispatches reach a common physical byte and one of them writes it. -/
def Races (bindings : ReplayBindings) (d e : PlannedDispatch) : Prop :=
  ∃ a ∈ d.accesses, ∃ b ∈ e.accesses, ∃ address, a.Touches bindings address ∧
    b.Touches bindings address ∧ (a.mode = .write ∨ b.mode = .write)

/-- `m` is a listed dependency of the dispatch of `n`. -/
def CompiledPlan.DependsOn (plan : CompiledPlan) (m n : NodeId) : Prop :=
  ∃ d ∈ plan.dispatches, d.node = n ∧ m ∈ d.dependencies

namespace ReplayBindings
variable {b : ReplayBindings} {plan : CompiledPlan}

theorem validate_ok (h : b.validate plan = .ok ()) :
    (∀ planned ∈ plan.resources, b.resourceError planned = none) ∧
      b.aliasError plan.resources = none := by
  unfold validate at h
  split at h
  · cases h
  · rename_i hnone
    rw [Option.or_eq_none_iff, Option.or_eq_none_iff] at hnone
    exact ⟨List.findSome?_eq_none_iff.mp hnone.1.1, hnone.2⟩

/-- Accepted bindings give every planned resource at least its size. -/
theorem bound_of_resourceError {planned : PlannedResource} (h : b.resourceError planned = none) :
    ∃ binding, b.resource planned.id = some binding ∧ planned.size ≤ binding.size := by
  unfold resourceError at h
  split at h
  · cases h
  · rename_i binding hbinding
    split at h
    · cases h
    · exact ⟨binding, hbinding, by omega⟩

theorem disjoint_of_aliasError {resources : List PlannedResource}
    (h : b.aliasError resources = none) : resources.Pairwise fun first second =>
      ∀ x y, b.resource first.id = some x → b.resource second.id = some y → x.overlaps y = false := by
  induction resources with
  | nil => exact .nil
  | cons first rest ih =>
    rw [aliasError, Option.or_eq_none_iff] at h
    refine List.pairwise_cons.mpr ⟨fun second hs x y hx hy => ?_, ih h.2⟩
    have hnone := List.findSome?_eq_none_iff.mp h.1 second hs
    simp only [hx, hy] at hnone
    by_contra hov
    simp [hov] at hnone

end ReplayBindings

namespace ResourceBinding

theorem address_eq {x : ResourceBinding} {i : ℕ} (hi : i < x.size) : x.address i = x.base + i := by
  have hfits := x.fits
  exact Nat.mod_eq_of_lt (by omega)

/-- Buffers that share an address overlap. -/
theorem overlaps_of_address {x y : ResourceBinding} {i j : ℕ} (hi : i < x.size) (hj : j < y.size)
    (h : x.address i = y.address j) : x.overlaps y = true := by
  rw [address_eq hi, address_eq hj] at h
  simp only [overlaps, Bool.and_eq_true, decide_eq_true_eq]
  omega

theorem overlaps_comm (x y : ResourceBinding) : x.overlaps y = y.overlaps x :=
  Bool.and_comm _ _

end ResourceBinding

section Validated
variable {sha256 : List UInt8 → Sha256Digest} {r : Recorder} {options : CompileOptions}
  {plan : CompiledPlan} {bindings : ReplayBindings}

/-- A recorded region lies within the buffer its resource is bound to. -/
private theorem bound_of_inBounds (hplan : compile sha256 r options = .ok plan)
    (hbind : bindings.validate plan = .ok ()) {region : DeviceRegion} (h : r.InBounds region) :
    ∃ planned binding, plan.resources[region.resource.index]? = some planned ∧
      planned.id = region.resource ∧ bindings.resource region.resource = some binding ∧
      region.end ≤ binding.size := by
  obtain ⟨howner, entry, hentry, hend⟩ := h
  have hplanned : plan.resources[region.resource.index]? =
      some ⟨⟨r.owner, region.resource.index⟩, entry.label, entry.size⟩ := by
    rw [compile_resources hplan]
    simp [List.getElem?_zipIdx, hentry]
  have hid : (⟨r.owner, region.resource.index⟩ : ResourceId) = region.resource := by rw [← howner]
  obtain ⟨binding, hbinding, hsize⟩ := ReplayBindings.bound_of_resourceError
    ((ReplayBindings.validate_ok hbind).1 _ (List.mem_of_getElem? hplanned))
  rw [hid] at hbinding
  exact ⟨_, binding, hplanned, hid, hbinding, hend.trans hsize⟩

/-- A physical byte common to two recorded regions is a common logical byte. -/
private theorem logical_of_physical (hplan : compile sha256 r options = .ok plan)
    (hbind : bindings.validate plan = .ok ()) {a c : Access} (ha : r.InBounds a.region)
    (hc : r.InBounds c.region) {address : ℕ} (hta : a.Touches bindings address)
    (htc : c.Touches bindings address) :
    ∃ resource i, a.region.Contains resource i ∧ c.region.Contains resource i := by
  obtain ⟨x, i, hx, hai, rfl⟩ := hta
  obtain ⟨y, j, hy, hcj, haddress⟩ := htc
  obtain ⟨first, x', hfirst, hfirstId, hx', haend⟩ := bound_of_inBounds hplan hbind ha
  obtain ⟨second, y', hsecond, hsecondId, hy', hcend⟩ := bound_of_inBounds hplan hbind hc
  obtain rfl : x' = x := Option.some.inj (hx'.symm.trans hx)
  obtain rfl : y' = y := Option.some.inj (hy'.symm.trans hy)
  have hi : i < x'.size := hai.2.2.trans_le haend
  have hj : j < y'.size := hcj.2.2.trans_le hcend
  have hoverlap := ResourceBinding.overlaps_of_address hi hj haddress
  have hdisjoint := List.pairwise_iff_getElem.mp
    (ReplayBindings.disjoint_of_aliasError (ReplayBindings.validate_ok hbind).2)
  obtain ⟨hm, hfirst⟩ := List.getElem?_eq_some_iff.mp hfirst
  obtain ⟨hn, hsecond⟩ := List.getElem?_eq_some_iff.mp hsecond
  rcases lt_trichotomy a.region.resource.index c.region.resource.index with hlt | heq | hgt
  · have hapart := hdisjoint _ _ hm hn hlt x' y' (by rw [hfirst, hfirstId, hx])
      (by rw [hsecond, hsecondId, hy])
    simp [hapart] at hoverlap
  · have hsame : a.region.resource = c.region.resource := by
      obtain ⟨hao, -⟩ := ha
      obtain ⟨hco, -⟩ := hc
      exact congrArg₂ ResourceId.mk (hao.trans hco.symm) heq
    obtain rfl : x' = y' := Option.some.inj (by rw [← hx, ← hy, hsame])
    rw [ResourceBinding.address_eq hi, ResourceBinding.address_eq hj] at haddress
    obtain rfl : i = j := by omega
    exact ⟨a.region.resource, i, hai, hsame ▸ hcj⟩
  · have hapart := hdisjoint _ _ hn hm hgt y' x' (by rw [hsecond, hsecondId, hy])
      (by rw [hfirst, hfirstId, hx])
    rw [ResourceBinding.overlaps_comm, hapart] at hoverlap
    cases hoverlap

/-- Dependency paths of the plan are the paths of the recorded edges. -/
private theorem dependsOn_iff (hs : plan.Schedules r) (hv : r.Valid) {m n : NodeId} :
    plan.DependsOn m n ↔ Edge r.edges m n := by
  constructor
  · rintro ⟨d, hd, rfl, hm⟩
    exact (hs.dependencies d hd m).mp hm
  · intro he
    obtain ⟨d, hd, rfl⟩ := hs.dispatch_of_id (hv.edges_known m n he).2
    exact ⟨d, hd, rfl, (hs.dependencies d hd m).mpr he⟩

end Validated
end Bound

section Kernarg
open Aql

/-- A little-endian word. -/
def ofLeBytes : List UInt8 → ℕ
  | [] => 0
  | b :: bytes => b.toNat + 256 * ofLeBytes bytes

theorem ofLeBytes_toLeBytes (width : ℕ) {n : ℕ} (h : n < 256 ^ width) :
    ofLeBytes (toLeBytes width n) = n := by
  induction width generalizing n with
  | zero => simp_all [toLeBytes, ofLeBytes]
  | succ width ih =>
    rw [toLeBytes, ofLeBytes, ih (by rw [pow_succ] at h; omega), UInt8.toNat_ofNat']
    omega

/-- The pointer a kernel loads from its kernarg segment. -/
def pointerAt (bytes : List UInt8) (offset : ℕ) : ℕ :=
  ofLeBytes ((bytes.drop offset).take devicePointerBytes)

/-- The bytes of one field. -/
def fieldBytes (bytes : List UInt8) (field : KernargField) : List UInt8 :=
  (bytes.drop field.offset).take field.size

theorem writeAt_length {bytes value : List UInt8} {start : ℕ}
    (h : start + value.length ≤ bytes.length) : (writeAt bytes start value).length = bytes.length := by
  simp [writeAt]
  omega

theorem fieldBytes_writeAt_self {bytes value : List UInt8} {field : KernargField}
    (hv : value.length = field.size) (h : field.end ≤ bytes.length) :
    fieldBytes (writeAt bytes field.offset value) field = value := by
  have hlen : (bytes.take field.offset).length = field.offset := by
    simp only [KernargField.end] at h
    simp
    omega
  rw [fieldBytes, writeAt, List.append_assoc, List.drop_left' hlen, List.take_left' hv]

theorem fieldBytes_writeAt_of_disjoint {bytes value : List UInt8} {field other : KernargField}
    (hv : value.length = other.size) (h : other.end ≤ bytes.length)
    (hd : field.end ≤ other.offset ∨ other.end ≤ field.offset) :
    fieldBytes (writeAt bytes other.offset value) field = fieldBytes bytes field := by
  simp only [KernargField.end] at h hd
  apply List.ext_getElem?
  intro i
  simp only [fieldBytes, List.getElem?_take, List.getElem?_drop, writeAt]
  split
  · rename_i hi
    rcases hd with hd | hd
    · rw [List.append_assoc, List.getElem?_append_left (by simp; omega), List.getElem?_take_of_lt (by omega)]
    · rw [List.getElem?_append_right (by simp; omega), List.getElem?_drop]
      congr 1
      simp
      omega
  · rfl

/-- Packing leaves every field with its own argument's value. -/
private theorem packPairs_ok {bindings : ReplayBindings} {pairs : List (KernelArg × KernargField)}
    {bytes result : List UInt8}
    (hsize : ∀ p ∈ pairs, ∀ value, argumentValue bindings p.1 = .ok value → value.length = p.2.size)
    (hin : ∀ p ∈ pairs, p.2.end ≤ bytes.length)
    (hd : pairs.Pairwise fun p q => p.2.end ≤ q.2.offset ∨ q.2.end ≤ p.2.offset)
    (h : pairs.foldlM (fun bytes (argument, field) => do
      let value ← argumentValue bindings argument
      return writeAt bytes field.offset value) bytes = .ok result) :
    (∀ field : KernargField, (∀ p ∈ pairs, field.end ≤ p.2.offset ∨ p.2.end ≤ field.offset) →
      fieldBytes result field = fieldBytes bytes field) ∧
    ∀ p ∈ pairs, argumentValue bindings p.1 = .ok (fieldBytes result p.2) := by
  induction pairs generalizing bytes with
  | nil =>
    cases h
    simp
  | cons p pairs ih =>
    rw [List.foldlM_cons] at h
    obtain ⟨next, hnext, h⟩ := bind_ok h
    obtain ⟨value, hvalue, hnext⟩ := bind_ok hnext
    cases hnext
    have hlen := hsize p List.mem_cons_self value hvalue
    have hend := hin p List.mem_cons_self
    have hfits : p.2.offset + value.length ≤ bytes.length := by
      rw [hlen]
      exact hend
    obtain ⟨hp, hpairs⟩ := List.pairwise_cons.mp hd
    obtain ⟨hother, hown⟩ := ih (fun q hq => hsize q (List.mem_cons_of_mem _ hq))
      (fun q hq => (hin q (List.mem_cons_of_mem _ hq)).trans (writeAt_length hfits).ge) hpairs h
    refine ⟨fun field hfield => ?_, fun q hq => ?_⟩
    · rw [hother field fun q hq => hfield q (List.mem_cons_of_mem _ hq),
        fieldBytes_writeAt_of_disjoint hlen hend (hfield p List.mem_cons_self)]
    · rcases List.mem_cons.mp hq with rfl | hq
      · rw [hother q.2 hp, fieldBytes_writeAt_self hlen hend]
        exact hvalue
      · exact hown q hq

private theorem argumentValue_length {bindings : ReplayBindings} {argument : KernelArg}
    {value : List UInt8} (h : argumentValue bindings argument = .ok value) :
    value.length = KernargAbi.argumentSize argument ∨
      KernargAbi.argumentSize argument = 2 ^ 32 - 1 ∧ ∃ bytes, argument = .scalar bytes := by
  cases argument with
  | scalar bytes =>
    cases h
    rw [KernargAbi.argumentSize]
    split
    · exact .inl rfl
    · exact .inr ⟨rfl, value, rfl⟩
  | scalarSlot slot size =>
    rw [argumentValue] at h
    split at h
    · cases h
    split at h
    · cases h
    · rename_i hlen
      cases h
      exact .inl (not_not.mp hlen)
  | resource resource byteOffset =>
    rw [argumentValue] at h
    split at h
    · cases h
    split at h
    · cases h
    split at h
    · cases h
    · cases h
      exact .inl (toLeBytes_length 8 _)

private theorem validateArguments_ok {abi : KernargAbi} {arguments : List KernelArg}
    (h : abi.validateArguments arguments = .ok ()) : arguments.length = abi.fields.length ∧
      ∀ p ∈ arguments.zip abi.fields, KernargAbi.argumentSize p.1 = p.2.size := by
  unfold KernargAbi.validateArguments at h
  split at h
  · cases h
  rename_i hlen
  split at h
  · rename_i hnone
    refine ⟨not_not.mp hlen, fun p hp => ?_⟩
    obtain ⟨i, hi⟩ := List.mem_iff_getElem?.mp hp
    have hok := List.find?_eq_none.mp hnone (p, i) (List.mk_mem_zipIdx_iff_getElem?.mpr hi)
    simpa using hok
  · cases h

/-- No field but the pointer's own fits beside an oversized scalar. -/
private theorem oversized_alone {p q : KernargField} (hp : p.size = 2 ^ 32 - 1)
    (hd : p.end ≤ q.offset ∨ q.end ≤ p.offset) : False := by
  have hpfits := p.fits
  have hqfits := q.fits
  have hq := q.nonempty
  simp only [KernargField.end] at hd
  omega

/-- The pointer packed for a resource argument is its address in the bound buffer. -/
theorem packKernarg_pointer {arguments : List KernelArg} {abi : KernargAbi}
    {bindings : ReplayBindings} {output filled : KernargBuffer}
    (h : packKernarg arguments abi bindings output = .ok filled) {i : ℕ} {resource : ResourceId}
    {byteOffset : ℕ} (hi : arguments[i]? = some (.resource resource byteOffset)) :
    ∃ field binding, abi.fields[i]? = some field ∧ field.size = devicePointerBytes ∧
      bindings.resource resource = some binding ∧ byteOffset < binding.size ∧
      pointerAt filled.bytes field.offset = binding.base + byteOffset := by
  unfold packKernarg at h
  split at h
  · cases h
  rename_i hargs
  split at h
  · cases h
  rename_i hlen
  obtain ⟨bytes, hbytes, h⟩ := bind_ok h
  cases h
  obtain ⟨hcount, hsizes⟩ := validateArguments_ok hargs
  have hpairs : (arguments.zip abi.fields).Pairwise fun p q =>
      p.2.end ≤ q.2.offset ∨ q.2.end ≤ p.2.offset := by
    have hdisjoint := abi.disjoint
    rwa [← List.map_snd_zip hcount.ge, List.pairwise_map] at hdisjoint
  obtain ⟨field, hfield⟩ : ∃ field, abi.fields[i]? = some field :=
    ⟨_, List.getElem?_eq_getElem (hcount ▸ (List.getElem?_eq_some_iff.mp hi).1)⟩
  have hpair : (arguments.zip abi.fields)[i]? = some (.resource resource byteOffset, field) := by
    simp [List.getElem?_zip_eq_some, hi, hfield]
  have hmem := List.mem_of_getElem? hpair
  have hvalues : ∀ p ∈ arguments.zip abi.fields, ∀ value,
      argumentValue bindings p.1 = .ok value → value.length = p.2.size := by
    intro p hp value hvalue
    rcases argumentValue_length hvalue with hvl | ⟨hwide, scalar, hscalar⟩
    · rw [hvl, hsizes p hp]
    · rcases pair_sublist hp hmem (by rintro rfl; cases hscalar) with hs | hs
      · have hd := (List.pairwise_cons.mp (hpairs.sublist hs)).1 _ (List.mem_singleton_self _)
        exact (oversized_alone (hsizes p hp ▸ hwide) hd).elim
      · have hd := (List.pairwise_cons.mp (hpairs.sublist hs)).1 _ (List.mem_singleton_self _)
        exact (oversized_alone (hsizes p hp ▸ hwide) hd.symm).elim
  have hbounds : ∀ p ∈ arguments.zip abi.fields,
      p.2.end ≤ (List.replicate output.bytes.length (0 : UInt8)).length := by
    intro p hp
    rw [List.length_replicate, not_not.mp hlen]
    exact abi.inBounds p.2 (List.of_mem_zip hp).2
  have hown := (packPairs_ok hvalues hbounds hpairs hbytes).2 _ hmem
  have hsize := hsizes _ hmem
  simp only [argumentValue] at hown
  split at hown
  · cases hown
  rename_i binding hbinding
  split at hown
  · cases hown
  rename_i hoffset
  split at hown
  · cases hown
  rename_i haddress
  refine ⟨field, binding, hfield, hsize.symm, hbinding, by omega, ?_⟩
  have hword := Except.ok.inj hown
  rw [fieldBytes, ← hsize] at hword
  rw [pointerAt]
  change ofLeBytes ((bytes.drop field.offset).take devicePointerBytes) = _
  rw [KernargAbi.argumentSize] at hword
  rw [← hword, ofLeBytes_toLeBytes 8 (by norm_num; omega)]

end Kernarg

/-- Physical race freedom of accepted bindings: dispatches that no dependency
path orders share no physical byte that one of them writes, and every pointer
packed into a kernarg lies in the buffer bound to its resource. -/
theorem validate_race_free (sha256 : List UInt8 → Sha256Digest) (owner : ℕ)
    (calls : List Recorder.Call) (options : CompileOptions) (plan : CompiledPlan)
    (bindings : ReplayBindings) (hplan : compile sha256 (.run owner calls) options = .ok plan)
    (hbind : bindings.validate plan = .ok ()) :
    (∀ d ∈ plan.dispatches, ∀ e ∈ plan.dispatches, d ≠ e →
      ¬ Relation.TransGen plan.DependsOn d.node e.node →
      ¬ Relation.TransGen plan.DependsOn e.node d.node → ¬ Races bindings d e) ∧
    (∀ d ∈ plan.dispatches, ∀ (abi : KernargAbi) (output filled : Aql.KernargBuffer),
      Aql.packKernarg d.launch.arguments abi bindings output = .ok filled →
      ∀ (i : ℕ) (resource : ResourceId) (byteOffset : ℕ),
        d.launch.arguments[i]? = some (.resource resource byteOffset) →
        ∃ field binding, abi.fields[i]? = some field ∧ bindings.resource resource = some binding ∧
          binding.base ≤ pointerAt filled.bytes field.offset ∧
          pointerAt filled.bytes field.offset < binding.base + binding.size) := by
  have hv := Recorder.run_valid owner calls
  have hbounded := Recorder.run_bounded owner calls
  obtain ⟨hs, hfree⟩ := compile_schedules hv hplan
  refine ⟨fun d hd e he hne hde hed hrace => ?_, fun d _ abi output filled hpack i resource
    byteOffset hi => ?_⟩
  · obtain ⟨a, ha, b, hb, address, hta, htb, hmode⟩ := hrace
    obtain ⟨m, hm, hmd, -, hma⟩ := hs.recorded d hd
    obtain ⟨n, hn, hne', -, hnb⟩ := hs.recorded e he
    rw [hma] at ha
    rw [hnb] at hb
    have hcommon := logical_of_physical hplan hbind (hbounded m hm a ha) (hbounded n hn b hb) hta htb
    have hmn : m ≠ n := by
      rintro rfl
      exact hne (List.inj_on_of_nodup_map (hs.nodes_nodup hv) hd he (hmd.symm.trans hne'))
    have hpaths : plan.DependsOn = Edge (Recorder.run owner calls).edges := by
      funext x y
      exact propext (dependsOn_iff hs hv)
    rw [hpaths] at hde hed
    rcases hfree.ordered hm hn hmn ⟨a, ha, b, hb, hcommon, hmode⟩ with hpath | hpath
    · exact hde (by rwa [hmd, hne'] at hpath)
    · exact hed (by rwa [hmd, hne'] at hpath)
  · obtain ⟨field, binding, hfield, -, hbinding, hoffset, hpointer⟩ := packKernarg_pointer hpack hi
    exact ⟨field, binding, hfield, hbinding, by omega, by omega⟩

private theorem no_path_of_no_dependencies {plan : CompiledPlan} {m n : NodeId}
    (h : ∀ d ∈ plan.dispatches, d.node = n → d.dependencies = []) :
    ¬ Relation.TransGen plan.DependsOn m n := by
  intro hp
  obtain ⟨x, -, d, hd, hn, hx⟩ := Relation.TransGen.tail'_iff.mp hp
  simp [h d hd hn] at hx

/-- The two producers, with the state bound at the top of the address space. -/
theorem twoChains_race_free : ∃ plan,
    compile (fun _ => Aql.zeroDigest) (.run 0 Aql.twoChains) Visibility.twoLanes = .ok plan ∧
    (Aql.boundAt 0xffffffffffffffbf).validate plan = .ok () ∧
    ∀ d ∈ plan.dispatches, ∀ e ∈ plan.dispatches, d.node = ⟨0, 0⟩ → e.node = ⟨0, 1⟩ →
      ¬ Races (Aql.boundAt 0xffffffffffffffbf) d e := by
  refine ⟨_, rfl, rfl, fun d hd e he hd0 he1 => ?_⟩
  refine (validate_race_free (fun _ => Aql.zeroDigest) 0 Aql.twoChains Visibility.twoLanes _
    (Aql.boundAt 0xffffffffffffffbf) rfl rfl).1 d hd e he ?_ ?_ ?_
  · rintro rfl
    rw [hd0] at he1
    cases he1
  · rw [he1]
    exact no_path_of_no_dependencies (by decide)
  · rw [hd0]
    exact no_path_of_no_dependencies (by decide)

end Hipscope.Redline

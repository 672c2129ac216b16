import Hipscope.Lists.Traverse
import Hipscope.Text.Json
import Mathlib.Data.List.Infix

/-! The plan of a pruned model, checked as its JSON is read. -/
namespace Hipscope.Reap

inductive Role where
  | routedExperts
  | sharedExpert
  | attention
  | router
  | lmHead
  | embed
  deriving DecidableEq, Repr

def Role.parse (s : List Char) : Except String Role :=
  if s = "routed_experts".toList then .ok .routedExperts
  else if s = "shared_expert".toList then .ok .sharedExpert
  else if s = "attention".toList then .ok .attention
  else if s = "router".toList then .ok .router
  else if s = "lm_head".toList then .ok .lmHead
  else if s = "embed".toList then .ok .embed
  else
    let other := String.ofList s
    .error s!"reap: unknown role '{other}'"

structure QuantOverride where
  layer : ℕ
  role : Role
  /-- None stands for the whole role at the layer. -/
  experts : List UInt32
  /-- None stands for every tensor of the role. -/
  tensors : List (List Char)
  tier : List Char
  deriving DecidableEq, Repr

structure ReapPlan where
  modelArch : Option (List Char)
  numLayers : ℕ
  originalExperts : ℕ
  /-- The original expert of each slot of each layer; `none` prunes nothing. -/
  keep : Option (List (List UInt32))
  quantOverrides : List QuantOverride
  dir : List Char
  deriving DecidableEq, Repr

inductive LoadError where
  | rejected (message : String)
  /-- An assignment into a value that is no object. -/
  | panicked
  deriving DecidableEq, Repr

def okOr {α : Type} (x : Option α) (message : String) : Except String α :=
  match x with
  | some a => .ok a
  | none => .error message

section Rows

/-- One entry of a keep row, behind the ones that were read; they are also the set of those seen. -/
def keepIndex (label : String) (l originalExperts : ℕ) (v32 : List UInt32) (x : JsonValue) :
    Except String (List UInt32) := do
  let n ← okOr x.asU64 s!"reap: {label} layer {l} non-integer index"
  -- `as u32`
  let idx := n.toUInt32
  if originalExperts ≤ idx.toNat then
    .error s!"reap: {label} layer {l} index {idx} >= original_experts {originalExperts}"
  else if idx ∈ v32 then .error s!"reap: {label} layer {l} has duplicate index {idx}"
  else .ok (v32 ++ [idx])

def keepRow (label : String) (originalExperts kept : ℕ) (row : JsonValue × ℕ) : Except String (List UInt32) := do
  let l := row.2
  let r ← okOr row.1.asArray s!"reap: {label} layer {l} not an array"
  let entries := r.length
  if entries ≠ kept then .error s!"reap: {label} layer {l} has {entries} entries, expected {kept}"
  else r.foldlM (keepIndex label l originalExperts) []

def keepRows (label : String) (originalExperts kept : ℕ) (arr : List JsonValue) : Except String (List (List UInt32)) :=
  arr.zipIdx.mapM (keepRow label originalExperts kept)

end Rows

section Overrides
variable (numLayers originalExperts i : ℕ)

def overrideExpert (x : JsonValue × ℕ) : Except String UInt32 := do
  let j := x.2
  let e ← okOr x.1.asU64 s!"reap: quant_override[{i}] experts[{j}] not an integer"
  -- `as u32`
  let n := e.toUInt32
  if originalExperts ≤ n.toNat then
    .error s!"reap: quant_override[{i}] expert {n} >= original_experts {originalExperts}"
  else .ok n

/-- One tensor name behind the ones that were read. -/
def overrideTensor (layer : ℕ) (role : Role) (names : List (List Char)) (x : JsonValue × ℕ) :
    Except String (List (List Char)) := do
  let j := x.2
  let name ← okOr x.1.asStr s!"reap: quant_override[{i}] tensors[{j}] not a string"
  let shown := String.ofList name
  let layerTok := s!"layers.{layer}.".toList
  if name = [] then .error s!"reap: quant_override[{i}] tensors[{j}] is empty"
  else if role ≠ .lmHead ∧ role ≠ .embed ∧ ¬ layerTok <:+: name then
    .error s!"reap: quant_override[{i}] tensor '{shown}' does not belong to layer {layer}"
  else if name ∈ names then .error s!"reap: quant_override[{i}] has duplicate tensor '{shown}'"
  else .ok (names ++ [name])

/-- The experts of an override; what is no array lists none. -/
def overrideExperts (o : JsonValue) : Except String (List UInt32) :=
  match (o.get "experts".toList).asArray with
  | some a => a.zipIdx.mapM (overrideExpert originalExperts i)
  | none => .ok []

def overrideTensors (layer : ℕ) (role : Role) (o : JsonValue) : Except String (List (List Char)) :=
  match (o.get "tensors".toList).asArray with
  | some a => a.zipIdx.foldlM (overrideTensor i layer role) []
  | none => .ok []

def overrideLayer (o : JsonValue) : Except String ℕ := do
  let n ← okOr (o.get "layer".toList).asU64 s!"reap: quant_override[{i}] missing layer"
  let layer := n.toNat
  if numLayers ≤ layer then .error s!"reap: quant_override[{i}] layer {layer} >= num_layers {numLayers}"
  else .ok layer

def quantOverride (o : JsonValue × ℕ) : Except String QuantOverride := do
  let i := o.2
  let layer ← overrideLayer numLayers i o.1
  let role ← Role.parse (← okOr (o.1.get "role".toList).asStr s!"reap: quant_override[{i}] missing role")
  let experts ← overrideExperts originalExperts i o.1
  if experts ≠ [] ∧ role ≠ .routedExperts then
    .error s!"reap: quant_override[{i}] lists experts but role is not routed_experts"
  else
    let tensors ← overrideTensors i layer role o.1
    let tier ← okOr (o.1.get "tier".toList).asStr s!"reap: quant_override[{i}] missing tier"
    .ok ⟨layer, role, experts, tensors, tier⟩

end Overrides

namespace ReapPlan

def perLayerOf (v : JsonValue) : JsonValue := (v.get "keep".toList).get "per_layer".toList

/-- The keep rows, if an array gives them. -/
def parseKeep (v : JsonValue) (numLayers originalExperts : ℕ) : Except String (Option (List (List UInt32))) :=
  match (perLayerOf v).asArray with
  | none => .ok none
  | some arr =>
    let layers := arr.length
    let kept := ((arr.head?.bind JsonValue.asArray).map List.length).getD 0
    if layers ≠ numLayers then .error s!"reap: keep.per_layer has {layers} layers, model has {numLayers}"
    else if kept = 0 then .error "reap: keep.per_layer present but keeps 0 experts (empty first layer)"
    else (keepRows "keep" originalExperts kept arr).map some

/-- What is no array lists no override. -/
def parseOverrides (v : JsonValue) (numLayers originalExperts : ℕ) : Except String (List QuantOverride) :=
  (v.get "quant_overrides".toList).items.zipIdx.mapM (quantOverride numLayers originalExperts)

/-- The counts come from the value itself, and one that is not there is 0. -/
def parseValue (v : JsonValue) (dir : List Char) : Except String ReapPlan := do
  let originalExperts := ((v.get "original_experts".toList).asU64.map UInt64.toNat).getD 0
  let numLayers := ((v.get "num_layers".toList).asU64.map UInt64.toNat).getD 0
  let keep ← parseKeep v numLayers originalExperts
  let quantOverrides ← parseOverrides v numLayers originalExperts
  return ⟨(v.get "model_arch".toList).asStr, numLayers, originalExperts, keep, quantOverrides, dir⟩

/-- A count that is not there is the model's. -/
def withCount (v : JsonValue) (key : List Char) (expected : UInt64) : Option JsonValue :=
  if (v.get key).asU64.isNone then v.set key (.number (.posInt expected)) else some v

/-- The plan of a file that was read as `v`, for a model with the given counts. -/
def load (v : JsonValue) (dir : List Char) (numLayersExpected origExpertsExpected : UInt64) :
    Except LoadError ReapPlan :=
  let originalExperts := (v.get "original_experts".toList).asU64.getD origExpertsExpected
  let numLayers := (v.get "num_layers".toList).asU64.getD numLayersExpected
  if originalExperts ≠ origExpertsExpected then
    .error (.rejected s!"reap: original_experts {originalExperts} != model n_routed_experts {origExpertsExpected}")
  else if numLayers ≠ numLayersExpected then
    .error (.rejected s!"reap: num_layers {numLayers} != model num_hidden_layers {numLayersExpected}")
  else
    match (withCount v "original_experts".toList origExpertsExpected).bind
        fun v => withCount v "num_layers".toList numLayersExpected with
    | none => .error .panicked
    | some v => (parseValue v dir).mapError .rejected

end ReapPlan

end Hipscope.Reap

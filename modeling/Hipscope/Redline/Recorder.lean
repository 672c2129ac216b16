import Hipscope.Redline.Ir
import Hipscope.Graph.Search

/-! The mutable builder of one dispatch DAG. A rejected call leaves the
recorder unchanged. -/
namespace Hipscope.Redline

section OrderedSet
variable {α : Type} [DecidableEq α] (r : α → α → Prop) [DecidableRel r]

/-- Insertion into an ordered set kept as its ascending list. -/
def btreeInsert (a : α) (l : List α) : List α := if a ∈ l then l else l.orderedInsert r a

@[simp] theorem mem_btreeInsert {a b : α} {l : List α} : b ∈ btreeInsert r a l ↔ b = a ∨ b ∈ l := by
  unfold btreeInsert
  split
  · exact ⟨.inr, by rintro (rfl | h) <;> assumption⟩
  · exact List.mem_orderedInsert r

theorem btreeInsert_perm {a : α} {l : List α} (h : a ∉ l) : (btreeInsert r a l).Perm (a :: l) := by
  rw [btreeInsert, if_neg h]
  exact List.perm_orderedInsert r a l

theorem btreeInsert_nodup {a : α} {l : List α} (h : l.Nodup) : (btreeInsert r a l).Nodup := by
  by_cases ha : a ∈ l
  · rwa [btreeInsert, if_pos ha]
  · exact (btreeInsert_perm r ha).nodup_iff.mpr (List.nodup_cons.mpr ⟨ha, h⟩)

end OrderedSet

/-- Derived order of node identities: owner first, then index. -/
def NodeId.le (a b : NodeId) : Prop := a.owner < b.owner ∨ (a.owner = b.owner ∧ a.index ≤ b.index)

instance : DecidableRel NodeId.le := fun _ _ => inferInstanceAs (Decidable (_ ∨ _))

/-- Derived order of edges. -/
def edgeLe (a b : NodeId × NodeId) : Prop := (a.1 ≠ b.1 ∧ a.1.le b.1) ∨ (a.1 = b.1 ∧ a.2.le b.2)

instance : DecidableRel edgeLe := fun _ _ => inferInstanceAs (Decidable (_ ∨ _))

structure Resource where
  label : String
  size : ℕ
  deriving DecidableEq

structure Node where
  id : NodeId
  launch : KernelLaunch
  accesses : List Access
  deriving DecidableEq

/-- The builder's state; edges are `(prerequisite, dependent)`. -/
structure Recorder where
  owner : ℕ
  resources : List Resource
  nodes : List Node
  edges : List (NodeId × NodeId)
  deriving DecidableEq

namespace Recorder

def new (owner : ℕ) : Recorder := ⟨owner, [], [], []⟩

def resource (r : Recorder) (label : String) (size : ℕ) :
    Except RecordError (ResourceId × Recorder) :=
  if trimIsEmpty label then .error .emptyResourceLabel
  else if size = 0 then .error .emptyResource
  else if r.resources.length < 2 ^ 32 then
    .ok (⟨r.owner, r.resources.length⟩, { r with resources := r.resources ++ [⟨label, size⟩] })
  else .error .tooManyResources

def resourceEntry (r : Recorder) (resource : ResourceId) : Except RecordError Resource :=
  if resource.owner ≠ r.owner then .error (.foreignResource resource)
  else match r.resources[resource.index]? with
    | some entry => .ok entry
    | none => .error (.unknownResource resource)

def validateRegion (r : Recorder) (region : DeviceRegion) : Except RecordError Unit := do
  let resource ← r.resourceEntry region.resource
  if region.end > resource.size then
    throw (.regionOutOfBounds region.resource region.offset region.len resource.size)

def region (r : Recorder) (resource : ResourceId) (offset len : ℕ) :
    Except RecordError DeviceRegion := do
  let region ← DeviceRegion.new resource offset len
  r.validateRegion region
  return region

/-- A resource argument points into an allocation at a declared byte. -/
def validateArgument (r : Recorder) (accesses : List Access) : KernelArg → Except RecordError Unit
  | .resource resource byteOffset => do
    let entry ← r.resourceEntry resource
    if byteOffset ≥ entry.size then
      throw (.resourceArgumentOutOfBounds resource byteOffset entry.size)
    if !accesses.any fun access => access.region.resource = resource &&
        access.region.offset ≤ byteOffset && byteOffset < access.region.end then
      throw (.undeclaredResourceArgument resource byteOffset)
  | .scalarSlot slot 0 => throw (.emptyScalarSlot slot)
  | .scalar _ | .scalarSlot _ _ => pure ()

def dispatch (r : Recorder) (launch : KernelLaunch) (accesses : List Access) :
    Except RecordError (NodeId × Recorder) := do
  accesses.forM fun access => r.validateRegion access.region
  launch.arguments.forM (r.validateArgument accesses)
  if r.nodes.length < 2 ^ 32 then
    let id : NodeId := ⟨r.owner, r.nodes.length⟩
    return (id, { r with nodes := r.nodes ++ [⟨id, launch, accesses⟩] })
  else throw .tooManyNodes

def validateNode (r : Recorder) (node : NodeId) : Except RecordError Unit :=
  if node.owner ≠ r.owner then .error (.foreignNode node)
  else if r.nodes[node.index]?.isNone then .error (.unknownNode node)
  else .ok ()

/-- Every pop either discards a seen node or spends the edges leaving a new one. -/
def pathExists (r : Recorder) (source target : NodeId) : Bool :=
  Graph.search r.edges target (r.edges.length + 2) [source] fun _ => false

/-- Make `node` wait for `prerequisite`. -/
def dependsOn (r : Recorder) (node prerequisite : NodeId) : Except RecordError Recorder := do
  r.validateNode node
  r.validateNode prerequisite
  if node = prerequisite || r.pathExists node prerequisite then
    throw (.dependencyCycle node prerequisite)
  else return { r with edges := btreeInsert edgeLe (prerequisite, node) r.edges }

inductive Call where
  | resource (label : String) (size : ℕ)
  | region (resource : ResourceId) (offset len : ℕ)
  | dispatch (launch : KernelLaunch) (accesses : List Access)
  | dependsOn (node prerequisite : NodeId)

/-- The recorder after one call, unchanged when the call was rejected. -/
def apply (r : Recorder) : Call → Recorder
  | .resource label size => (r.resource label size).toOption.elim r Prod.snd
  | .region _ _ _ => r
  | .dispatch launch accesses => (r.dispatch launch accesses).toOption.elim r Prod.snd
  | .dependsOn node prerequisite => (r.dependsOn node prerequisite).toOption.getD r

/-- A recorder built by any sequence of calls. -/
def run (owner : ℕ) (calls : List Call) : Recorder := calls.foldl apply (new owner)

/-- Identities of the recorded nodes, in recording order. -/
def ids (r : Recorder) : List NodeId := r.nodes.map Node.id

/-- What the call sequence maintains. -/
structure Valid (r : Recorder) : Prop where
  id_eq : ∀ (i : ℕ) (n : Node), r.nodes[i]? = some n → n.id = ⟨r.owner, i⟩
  bounded : r.nodes.length ≤ 2 ^ 32
  edges_known : ∀ a b, Graph.Edge r.edges a b → a ∈ r.ids ∧ b ∈ r.ids
  edges_nodup : r.edges.Nodup
  acyclic : Graph.Acyclic r.edges

namespace Valid
variable {r : Recorder}

theorem mem_ids (h : r.Valid) {a : NodeId} :
    a ∈ r.ids ↔ a.owner = r.owner ∧ a.index < r.nodes.length := by
  simp only [ids, List.mem_map]
  constructor
  · rintro ⟨n, hn, rfl⟩
    obtain ⟨i, hi⟩ := List.mem_iff_getElem?.mp hn
    rw [h.id_eq i n hi]
    exact ⟨rfl, (List.getElem?_eq_some_iff.mp hi).1⟩
  · rintro ⟨ho, hi⟩
    refine ⟨r.nodes[a.index], List.getElem_mem hi, ?_⟩
    rw [h.id_eq a.index _ (List.getElem?_eq_getElem hi), ← ho]

theorem ids_nodup (h : r.Valid) : r.ids.Nodup := by
  rw [ids, List.Nodup, List.pairwise_map, List.pairwise_iff_getElem]
  intro i j hi hj hij heq
  rw [h.id_eq i _ (List.getElem?_eq_getElem hi), h.id_eq j _ (List.getElem?_eq_getElem hj)] at heq
  exact hij.ne (NodeId.mk.inj heq).2

theorem node_of_id (h : r.Valid) {a : NodeId} (ha : a ∈ r.ids) :
    ∃ n, r.nodes[a.index]? = some n ∧ n ∈ r.nodes ∧ n.id = a := by
  obtain ⟨ho, hi⟩ := h.mem_ids.mp ha
  refine ⟨r.nodes[a.index], List.getElem?_eq_getElem hi, List.getElem_mem hi, ?_⟩
  rw [h.id_eq a.index _ (List.getElem?_eq_getElem hi), ← ho]

end Valid

theorem new_valid (owner : ℕ) : (new owner).Valid where
  id_eq i n h := by simp [new] at h
  bounded := by simp [new]
  edges_known a b h := by simp [new, Graph.Edge] at h
  edges_nodup := .nil
  acyclic a h := by
    obtain ⟨b, -, hb⟩ := Relation.TransGen.tail'_iff.mp h
    simp [new, Graph.Edge] at hb

theorem resource_ok {r r' : Recorder} {label : String} {size : ℕ} {id : ResourceId}
    (h : r.resource label size = .ok (id, r')) :
    r' = { r with resources := r.resources ++ [⟨label, size⟩] } := by
  unfold resource at h
  split at h
  · cases h
  split at h
  · cases h
  split at h
  · cases h
    rfl
  · cases h

theorem dispatch_ok {r r' : Recorder} {launch : KernelLaunch} {accesses : List Access} {id : NodeId}
    (h : r.dispatch launch accesses = .ok (id, r')) :
    r.nodes.length < 2 ^ 32 ∧ id = ⟨r.owner, r.nodes.length⟩ ∧
      r' = { r with nodes := r.nodes ++ [⟨id, launch, accesses⟩] } := by
  obtain ⟨_, -, h⟩ := bind_ok h
  obtain ⟨_, -, h⟩ := bind_ok h
  split at h
  · rename_i hlen
    cases h
    exact ⟨hlen, rfl, rfl⟩
  · cases h

theorem validateNode_ok {r : Recorder} (hv : r.Valid) {a : NodeId}
    (h : r.validateNode a = .ok ()) : a ∈ r.ids := by
  unfold validateNode at h
  split at h
  · cases h
  split at h
  · cases h
  · rename_i ho hi
    exact hv.mem_ids.mpr ⟨by simpa using ho, by simpa using hi⟩

theorem pathExists_iff {r : Recorder} {a b : NodeId} :
    r.pathExists a b = true ↔ Relation.ReflTransGen (Graph.Edge r.edges) a b :=
  Graph.search_iff (by omega)

theorem dependsOn_ok {r r' : Recorder} {node prerequisite : NodeId}
    (h : r.dependsOn node prerequisite = .ok r') :
    r.validateNode node = .ok () ∧ r.validateNode prerequisite = .ok () ∧
      ¬ Relation.ReflTransGen (Graph.Edge r.edges) node prerequisite ∧
      r' = { r with edges := btreeInsert edgeLe (prerequisite, node) r.edges } := by
  obtain ⟨⟨⟩, hn, h⟩ := bind_ok h
  obtain ⟨⟨⟩, hp, h⟩ := bind_ok h
  split at h
  · cases h
  · rename_i hpath
    cases h
    simp only [Bool.or_eq_true, decide_eq_true_eq, not_or] at hpath
    exact ⟨hn, hp, fun hc => hpath.2 (pathExists_iff.mpr hc), rfl⟩

private theorem Valid.push {r : Recorder} (hv : r.Valid) (hlen : r.nodes.length < 2 ^ 32)
    (launch : KernelLaunch) (accesses : List Access) :
    Valid { r with nodes := r.nodes ++ [⟨⟨r.owner, r.nodes.length⟩, launch, accesses⟩] } where
  id_eq i n h := by
    rcases Nat.lt_or_ge i r.nodes.length with hi | hi
    · exact hv.id_eq i n (by simpa [List.getElem?_append_left hi] using h)
    · simp only [List.getElem?_append_right hi, List.getElem?_singleton] at h
      split at h
      · cases h
        simp only [NodeId.mk.injEq, true_and]
        omega
      · cases h
  bounded := by simpa using hlen
  edges_known a b hab := by
    obtain ⟨ha, hb⟩ := hv.edges_known a b hab
    simp only [ids, List.map_append, List.mem_append] at ha hb ⊢
    exact ⟨.inl ha, .inl hb⟩
  edges_nodup := hv.edges_nodup
  acyclic := hv.acyclic

private theorem Valid.connect {r : Recorder} (hv : r.Valid) {node prerequisite : NodeId}
    (hn : node ∈ r.ids) (hp : prerequisite ∈ r.ids)
    (hpath : ¬ Relation.ReflTransGen (Graph.Edge r.edges) node prerequisite) :
    Valid { r with edges := btreeInsert edgeLe (prerequisite, node) r.edges } where
  id_eq := hv.id_eq
  bounded := hv.bounded
  edges_known a b hab := by
    rcases (mem_btreeInsert edgeLe).mp hab with heq | hab
    · cases heq
      exact ⟨hp, hn⟩
    · exact hv.edges_known a b hab
  edges_nodup := btreeInsert_nodup edgeLe hv.edges_nodup
  acyclic := by
    refine hv.acyclic.insert (p := prerequisite) (n := node) (fun a b hab => ?_) hpath
    rcases (mem_btreeInsert edgeLe).mp hab with heq | hab
    · cases heq
      exact .inr ⟨rfl, rfl⟩
    · exact .inl hab

theorem apply_valid {r : Recorder} (hv : r.Valid) (c : Call) : (r.apply c).Valid := by
  cases c with
  | resource label size =>
    simp only [apply]
    cases h : r.resource label size with
    | error _ => exact hv
    | ok x =>
      obtain ⟨id, r'⟩ := x
      obtain rfl := resource_ok h
      exact ⟨hv.id_eq, hv.bounded, hv.edges_known, hv.edges_nodup, hv.acyclic⟩
  | region _ _ _ => exact hv
  | dispatch launch accesses =>
    simp only [apply]
    cases h : r.dispatch launch accesses with
    | error _ => exact hv
    | ok x =>
      obtain ⟨id, r'⟩ := x
      obtain ⟨hlen, rfl, rfl⟩ := dispatch_ok h
      exact hv.push hlen launch accesses
  | dependsOn node prerequisite =>
    simp only [apply]
    cases h : r.dependsOn node prerequisite with
    | error _ => exact hv
    | ok r' =>
      obtain ⟨hn, hp, hpath, rfl⟩ := dependsOn_ok h
      exact hv.connect (validateNode_ok hv hn) (validateNode_ok hv hp) hpath

theorem run_valid (owner : ℕ) (calls : List Call) : (run owner calls).Valid := by
  unfold run
  induction calls using List.reverseRecOn with
  | nil => exact new_valid owner
  | append_singleton calls c ih =>
    rw [List.foldl_append]
    exact apply_valid ih c

end Recorder
end Hipscope.Redline

/-! The recorder's calls as they run on its own state: what a failing call has written by then is kept. -/
namespace Hipscope.Redline.Recorder

/-- The work list of the path search; `none` is out of fuel or an index outside `seen`. -/
def pathLoop (edges : List (NodeId × NodeId)) (target : NodeId) : ℕ → List NodeId → List Bool → Option Bool
  | 0, _, _ => none
  | _ + 1, [], _ => some false
  | fuel + 1, node :: stack, seen =>
    if node = target then some true
    else
      match seen[node.index]? with
      | none => none
      | some true => pathLoop edges target fuel stack seen
      | some false =>
        pathLoop edges target fuel ((Graph.successors edges node).reverse ++ stack) (seen.set node.index true)

/-- A call on the recorder's state. -/
abbrev Op (α : Type) := ExceptT RecordError (StateM Recorder) α

def checked {α : Type} (check : Recorder → Except RecordError α) : Op α := do
  let r ← get
  match check r with
  | .ok a => return a
  | .error e => throw e

def resourceOp (label : String) (size : ℕ) : Op ResourceId := do
  if trimIsEmpty label then throw .emptyResourceLabel
  if size = 0 then throw .emptyResource
  let r ← get
  if ¬ r.resources.length < 2 ^ 32 then throw .tooManyResources
  modify fun r => { r with resources := r.resources ++ [⟨label, size⟩] }
  return ⟨r.owner, r.resources.length⟩

def dispatchOp (launch : KernelLaunch) (accesses : List Access) : Op NodeId := do
  checked fun r => accesses.forM fun access => r.validateRegion access.region
  checked fun r => launch.arguments.forM (r.validateArgument accesses)
  let r ← get
  if ¬ r.nodes.length < 2 ^ 32 then throw .tooManyNodes
  let id : NodeId := ⟨r.owner, r.nodes.length⟩
  modify fun r => { r with nodes := r.nodes ++ [⟨id, launch, accesses⟩] }
  return id

def dependsOnOp (node prerequisite : NodeId) : Op Unit := do
  checked (·.validateNode node)
  checked (·.validateNode prerequisite)
  let r ← get
  if node = prerequisite || r.pathExists node prerequisite then throw (.dependencyCycle node prerequisite)
  modify fun r => { r with edges := btreeInsert edgeLe (prerequisite, node) r.edges }

def callOp : Call → Op Unit
  | .resource label size => do let _ ← resourceOp label size
  | .region resource offset len => do let _ ← checked (·.region resource offset len)
  | .dispatch launch accesses => do let _ ← dispatchOp launch accesses
  | .dependsOn node prerequisite => dependsOnOp node prerequisite

/-- What a call gives from a state, and the state it leaves. -/
def Op.exec {α : Type} (op : Op α) (r : Recorder) : Except RecordError α × Recorder := op.run.run r

section Ops
variable {α β : Type} {r r' : Recorder} {e : RecordError}

@[simp] theorem exec_pure (a : α) : (pure a : Op α).exec r = (.ok a, r) := rfl

@[simp] theorem exec_throw : (throw e : Op α).exec r = (.error e, r) := rfl

@[simp] theorem exec_get : (get : Op Recorder).exec r = (.ok r, r) := rfl

@[simp] theorem exec_modify (f : Recorder → Recorder) : (modify f : Op PUnit).exec r = (.ok ⟨⟩, f r) := rfl

theorem exec_bind_ok {op : Op α} {f : α → Op β} {a : α} (h : op.exec r = (.ok a, r')) :
    (op >>= f).exec r = (f a).exec r' := by
  unfold Op.exec at h ⊢
  rw [ExceptT.run_bind, StateT.run_bind]
  erw [h]
  rfl

theorem exec_bind_error {op : Op α} {f : α → Op β} (h : op.exec r = (.error e, r')) :
    (op >>= f).exec r = (.error e, r') := by
  unfold Op.exec at h ⊢
  rw [ExceptT.run_bind, StateT.run_bind]
  erw [h]
  rfl

theorem exec_checked (check : Recorder → Except RecordError α) : (checked check).exec r = (check r, r) := by
  rw [checked, exec_bind_ok exec_get]
  cases check r <;> rfl

theorem exec_resourceOp (label : String) (size : ℕ) : (resourceOp label size).exec r =
    ((r.resource label size).map Prod.fst, (r.resource label size).toOption.elim r Prod.snd) := by
  unfold resourceOp resource
  by_cases hlabel : trimIsEmpty label = true
  · rw [if_pos hlabel, if_pos hlabel]
    rfl
  rw [if_neg hlabel, if_neg hlabel]
  by_cases hsize : size = 0
  · simp only [hsize, if_true]
    rfl
  · simp only [hsize, if_false]
    rw [exec_bind_ok exec_get]
    by_cases hroom : r.resources.length < 2 ^ 32
    · simp only [hroom, not_true, if_false, if_true]
      rfl
    · simp only [hroom, not_false_eq_true, if_false, if_true]
      rfl

theorem exec_dispatchOp (launch : KernelLaunch) (accesses : List Access) : (dispatchOp launch accesses).exec r =
    ((r.dispatch launch accesses).map Prod.fst, (r.dispatch launch accesses).toOption.elim r Prod.snd) := by
  unfold dispatchOp dispatch
  have hregions := exec_checked (r := r) fun r => accesses.forM fun access => r.validateRegion access.region
  have harguments := exec_checked (r := r) fun r => launch.arguments.forM (r.validateArgument accesses)
  cases h : accesses.forM fun access => r.validateRegion access.region with
  | error e =>
    rw [h] at hregions
    exact exec_bind_error hregions
  | ok u =>
    rw [h] at hregions
    rw [exec_bind_ok hregions]
    cases h' : launch.arguments.forM (r.validateArgument accesses) with
    | error e =>
      rw [h'] at harguments
      exact exec_bind_error harguments
    | ok u =>
      rw [h'] at harguments
      rw [exec_bind_ok harguments, exec_bind_ok exec_get]
      by_cases hroom : r.nodes.length < 2 ^ 32
      · simp only [hroom, not_true, if_false, if_true]
        rfl
      · simp only [hroom, not_false_eq_true, if_false, if_true]
        rfl

theorem exec_dependsOnOp (node prerequisite : NodeId) : (dependsOnOp node prerequisite).exec r =
    ((r.dependsOn node prerequisite).map fun _ => (), (r.dependsOn node prerequisite).toOption.getD r) := by
  unfold dependsOnOp dependsOn
  have hnode := exec_checked (r := r) (·.validateNode node)
  have hprerequisite := exec_checked (r := r) (·.validateNode prerequisite)
  cases h : r.validateNode node with
  | error e =>
    rw [h] at hnode
    exact exec_bind_error hnode
  | ok u =>
    rw [h] at hnode
    rw [exec_bind_ok hnode]
    cases h' : r.validateNode prerequisite with
    | error e =>
      rw [h'] at hprerequisite
      exact exec_bind_error hprerequisite
    | ok u =>
      rw [h'] at hprerequisite
      rw [exec_bind_ok hprerequisite, exec_bind_ok exec_get]
      by_cases hcycle : (node = prerequisite || r.pathExists node prerequisite) = true
      · simp only [hcycle, if_true]
        rfl
      · simp only [hcycle]
        rfl

/-- Every way to fail comes before the write. -/
theorem callOp_spec (c : Call) : ((callOp c).exec r).2 = r.apply c ∧
    ∀ e, ((callOp c).exec r).1 = .error e → r.apply c = r := by
  cases c with
  | resource label size =>
    have h := exec_resourceOp (r := r) label size
    simp only [callOp, apply]
    cases hr : r.resource label size with
    | error e =>
      rw [hr] at h
      rw [exec_bind_error h]
      exact ⟨rfl, fun _ _ => rfl⟩
    | ok out =>
      rw [hr] at h
      rw [exec_bind_ok h]
      exact ⟨rfl, fun _ he => by cases he⟩
  | region resource offset len =>
    have h := exec_checked (r := r) (·.region resource offset len)
    simp only [callOp, apply]
    cases hr : r.region resource offset len with
    | error e =>
      rw [hr] at h
      rw [exec_bind_error h]
      exact ⟨rfl, fun _ _ => trivial⟩
    | ok out =>
      rw [hr] at h
      rw [exec_bind_ok h]
      exact ⟨rfl, fun _ _ => trivial⟩
  | dispatch launch accesses =>
    have h := exec_dispatchOp (r := r) launch accesses
    simp only [callOp, apply]
    cases hr : r.dispatch launch accesses with
    | error e =>
      rw [hr] at h
      rw [exec_bind_error h]
      exact ⟨rfl, fun _ _ => rfl⟩
    | ok out =>
      rw [hr] at h
      rw [exec_bind_ok h]
      exact ⟨rfl, fun _ he => by cases he⟩
  | dependsOn node prerequisite =>
    have h := exec_dependsOnOp (r := r) node prerequisite
    simp only [callOp, apply]
    rw [h]
    cases hr : r.dependsOn node prerequisite with
    | error e => exact ⟨rfl, fun _ _ => rfl⟩
    | ok out => exact ⟨rfl, fun _ he => by cases he⟩

end Ops

/-- The states a recorder goes through. -/
def runOps (owner : ℕ) (calls : List Call) : Recorder :=
  calls.foldl (fun r c => ((callOp c).exec r).2) (new owner)

theorem runOps_eq_run (owner : ℕ) (calls : List Call) : runOps owner calls = run owner calls := by
  have hstep : (fun r c => ((callOp c).exec r).2) = apply := by
    funext r c
    exact (callOp_spec c).1
  rw [runOps, run, hstep]

section Search
variable {r : Recorder} {edges : List (NodeId × NodeId)} {target node prerequisite : NodeId}

/-- The flags as a set of identities of one owner. -/
private def flags (owner : ℕ) (seen : List Bool) (a : NodeId) : Bool :=
  decide (a.owner = owner) && seen.getD a.index false

private theorem flags_set {owner : ℕ} {seen : List Bool} (howner : node.owner = owner)
    (hnode : node.index < seen.length) :
    flags owner (seen.set node.index true) = Function.update (flags owner seen) node true := by
  funext a
  by_cases ha : a = node
  · subst ha
    rw [Function.update_self, flags, List.getD_eq_getElem?_getD, List.getElem?_set_self hnode]
    simp [howner]
  · rw [Function.update_of_ne ha, flags, flags]
    by_cases hindex : node.index = a.index
    · have hother : a.owner ≠ owner := by
        intro hsame
        apply ha
        obtain ⟨_, _⟩ := a
        obtain ⟨_, _⟩ := node
        simp_all
      simp [hother]
    · rw [List.getD_eq_getElem?_getD, List.getElem?_set_ne hindex, List.getD_eq_getElem?_getD]

/-- On known nodes the flags are in range, and the loop is the search over sets of nodes. -/
private theorem pathLoop_eq {owner n : ℕ} (hedges : ∀ a b, Graph.Edge edges a b → b.owner = owner ∧ b.index < n)
    {fuel : ℕ} {stack : List NodeId} {seen : List Bool} (hseen : seen.length = n)
    (hstack : ∀ a ∈ stack, a.owner = owner ∧ a.index < n) :
    pathLoop edges target fuel stack seen = Graph.searchLoop edges target fuel stack (flags owner seen) := by
  induction fuel generalizing stack seen with
  | zero => rfl
  | succ fuel ih =>
    cases stack with
    | nil => rfl
    | cons node stack =>
      obtain ⟨howner, hindex⟩ := hstack node List.mem_cons_self
      have hrest := fun a ha => hstack a (List.mem_cons_of_mem node ha)
      rw [pathLoop, Graph.searchLoop]
      by_cases hn : node = target
      · rw [if_pos hn, if_pos hn]
      rw [if_neg hn, if_neg hn]
      have hget := List.getElem?_eq_getElem (hseen ▸ hindex : node.index < seen.length)
      have hflag : flags owner seen node = seen[node.index] := by
        rw [flags, List.getD_eq_getElem?_getD, hget]
        simp [howner]
      rw [hget, hflag]
      cases hvisited : seen[node.index] with
      | true => exact ih hseen hrest
      | false =>
        rw [← flags_set howner (hseen ▸ hindex)]
        apply ih (by rw [List.length_set]; exact hseen)
        intro a ha
        rw [List.mem_append, List.mem_reverse, Graph.mem_successors] at ha
        exact ha.elim (hedges node a) (hrest a)

/-- The path search of a valid recorder ends, stays in range and finds exactly what a path leads to. -/
theorem Valid.pathLoop_spec (h : r.Valid) (hnode : node ∈ r.ids) {fuel : ℕ} (hfuel : r.edges.length + 1 < fuel) :
    pathLoop r.edges target fuel [node] (List.replicate r.nodes.length false) = some (r.pathExists node target) := by
  have hknown : ∀ a b, Graph.Edge r.edges a b → b.owner = r.owner ∧ b.index < r.nodes.length :=
    fun a b hab => h.mem_ids.1 (h.edges_known a b hab).2
  have hflags : flags r.owner (List.replicate r.nodes.length false) = fun _ => false := by
    funext a
    rw [flags, List.getD_eq_getElem?_getD, List.getElem?_replicate]
    split_ifs <;> simp
  have hloop : ∃ found, Graph.searchLoop r.edges target fuel [node] (fun _ => false) = some found ∧
      (found = true ↔ Relation.ReflTransGen (Graph.Edge r.edges) node target) := Graph.searchLoop_iff hfuel
  obtain ⟨found, hfound, hiff⟩ := hloop
  rw [pathLoop_eq hknown List.length_replicate (by simpa using h.mem_ids.1 hnode), hflags, hfound]
  exact congrArg some (Bool.eq_iff_iff.2 (hiff.trans pathExists_iff.symm))

theorem Valid.validateNode_iff (h : r.Valid) : r.validateNode node = .ok () ↔ node ∈ r.ids := by
  constructor
  · exact validateNode_ok h
  · intro hnode
    obtain ⟨howner, hindex⟩ := h.mem_ids.1 hnode
    rw [validateNode, if_neg (not_not.2 howner), List.getElem?_eq_getElem hindex]
    rfl

theorem Valid.dependsOn_iff (h : r.Valid) : (∃ r', r.dependsOn node prerequisite = .ok r') ↔
    node ∈ r.ids ∧ prerequisite ∈ r.ids ∧ Graph.Acyclic ((prerequisite, node) :: r.edges) := by
  constructor
  · rintro ⟨r', hr⟩
    obtain ⟨hnode, hprerequisite, hpath, -⟩ := dependsOn_ok hr
    refine ⟨h.validateNode_iff.1 hnode, h.validateNode_iff.1 hprerequisite, ?_⟩
    refine h.acyclic.insert (fun a b hab => ?_) hpath
    obtain heq | hab := List.mem_cons.1 hab
    · exact .inr (Prod.mk.inj heq)
    · exact .inl hab
  · rintro ⟨hnode, hprerequisite, hacyclic⟩
    have hpath := hacyclic.no_path_back
    have hfree : (node = prerequisite || r.pathExists node prerequisite) = false := by
      rw [Bool.or_eq_false_iff]
      refine ⟨decide_eq_false fun heq => hpath (heq ▸ .refl), ?_⟩
      rw [Bool.eq_false_iff]
      exact fun hfound => hpath (pathExists_iff.1 hfound)
    refine ⟨{ r with edges := btreeInsert edgeLe (prerequisite, node) r.edges }, ?_⟩
    unfold dependsOn
    rw [h.validateNode_iff.2 hnode, h.validateNode_iff.2 hprerequisite]
    simp only [hfree]
    rfl

end Search

/-- What holds of a recorder between two calls. -/
structure Sound (r : Recorder) : Prop where
  acyclic : Graph.Acyclic r.edges
  accepts : ∀ node prerequisite, (((dependsOnOp node prerequisite).exec r).1 = .ok () ↔
    node ∈ r.ids ∧ prerequisite ∈ r.ids ∧ Graph.Acyclic ((prerequisite, node) :: r.edges))
  inserts : ∀ node prerequisite, ((dependsOnOp node prerequisite).exec r).1 = .ok () →
    ∀ a b, Graph.Edge ((dependsOnOp node prerequisite).exec r).2.edges a b ↔
      (a, b) = (prerequisite, node) ∨ Graph.Edge r.edges a b
  search : ∀ node ∈ r.ids, ∀ target, ∃ found,
    (∀ fuel > r.edges.length + 1,
      pathLoop r.edges target fuel [node] (List.replicate r.nodes.length false) = some found) ∧
    found = r.pathExists node target ∧
    (found = true ↔ Relation.ReflTransGen (Graph.Edge r.edges) node target)
  unchanged : ∀ c e, ((callOp c).exec r).1 = .error e → ((callOp c).exec r).2 = r

/-- Edges stay acyclic, accepted edges are those that close no cycle, and failures change nothing. -/
theorem runOps_sound (owner : ℕ) (calls : List Call) : (runOps owner calls).Sound := by
  have h := run_valid owner calls
  rw [← runOps_eq_run] at h
  constructor
  case acyclic => exact h.acyclic
  case accepts =>
    intro node prerequisite
    rw [← h.dependsOn_iff, exec_dependsOnOp]
    cases (runOps owner calls).dependsOn node prerequisite with
    | error e => exact iff_of_false (fun he => by cases he) (fun he => by obtain ⟨_, he⟩ := he; cases he)
    | ok r' => exact iff_of_true rfl ⟨r', rfl⟩
  case inserts =>
    intro node prerequisite hok a b
    rw [exec_dependsOnOp] at hok ⊢
    cases hr : (runOps owner calls).dependsOn node prerequisite with
    | error e =>
      rw [hr] at hok
      cases hok
    | ok r' =>
      obtain ⟨-, -, -, rfl⟩ := dependsOn_ok hr
      exact mem_btreeInsert edgeLe
  case search =>
    intro node hnode target
    exact ⟨_, fun fuel hfuel => h.pathLoop_spec hnode hfuel, rfl, pathExists_iff⟩
  case unchanged =>
    intro c e he
    rw [(callOp_spec c).1]
    exact (callOp_spec c).2 e he

end Hipscope.Redline.Recorder

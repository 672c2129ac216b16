import Hipscope.Config.Schema
import Mathlib.Data.List.AList
import Mathlib.Data.List.Sort

/-! Layers of configuration values, and what a stack of them resolves to. -/
namespace Hipscope.Config

section Keys

def developerPrefix : Key := "developer.".toList

def validDeveloperSuffix (suffix : Key) : Bool :=
  !suffix.isEmpty && suffix.all fun c => ('a' ≤ c && c ≤ 'z') || c.isDigit || c = '_'

def isDeveloperKey (key : Key) : Bool :=
  developerPrefix <+: key && validDeveloperSuffix (key.drop developerPrefix.length)

def canonicalConfigKey (key : Key) : Option Key :=
  ((field key).map ConfigField.key).or (if isDeveloperKey key then some key else none)

end Keys

/-- A map from keys, as its entries. -/
abbrev BTreeMap (V : Type) := AList fun _ : Key => V

/-- The entries in the order of the keys. -/
def BTreeMap.iter {V : Type} (m : BTreeMap V) : List (Key × V) :=
  (m.entries.map fun e => (e.1, e.2)).insertionSort fun a b => a.1 ≤ b.1

/-- A map from entries, the later ones over the earlier. -/
def collect {V : Type} (entries : List (Key × V)) : BTreeMap V := entries.foldl (fun map m => map.insert m.1 m.2) ∅

structure ConfigLayer where
  values : BTreeMap ConfigValue

section Layers
variable (isFile : List Char → Bool)

/-- Set a value under the canonical key of its field, or a developer value under its own. -/
def ConfigLayer.set (self : ConfigLayer) (key : Key) (value : ConfigValue) : Except ConfigError ConfigLayer :=
  match field key with
  | some schema => do
    schema.validate isFile value
    .ok ⟨self.values.insert schema.key value⟩
  | none => if isDeveloperKey key then .ok ⟨self.values.insert key value⟩ else .error (.unknownKey key)

def validateEntry (m : Key × ConfigValue) : Except ConfigError Unit :=
  match field m.1 with
  | some schema => schema.validate isFile m.2
  | none => if isDeveloperKey m.1 then .ok () else .error (.unknownKey m.1)

def ConfigLayer.validate (self : ConfigLayer) : Except ConfigError Unit :=
  self.values.iter.forM (validateEntry isFile)

end Layers

inductive ConfigSource where
  | builtIn
  | registryModel (tag revision : List Char)
  | registryTarget (tag arch revision : List Char)
  | globalUser (path : List Char)
  | modelUser (model path : List Char)
  | legacyEnv (name : List Char)
  | oneShot (argument : List Char)

structure ConfigCandidate where
  value : ConfigValue
  source : ConfigSource

structure ResolvedValue where
  value : ConfigValue
  source : ConfigSource
  shadowed : List ConfigCandidate

structure ResolvedConfig where
  values : BTreeMap ResolvedValue

structure NamedLayer where
  source : ConfigSource
  layer : ConfigLayer

namespace ResolvedConfig

/-- Every field at its default. -/
def builtIn : ResolvedConfig :=
  ⟨schemaFields.foldl (fun values f => values.insert f.key ⟨f.default, .builtIn, []⟩) ∅⟩

/-- Put one value of a layer over what is there. -/
def apply (source : ConfigSource) (out : ResolvedConfig) (m : Key × ConfigValue) : Except ConfigError ResolvedConfig :=
  match out.values.lookup m.1 with
  | some current =>
    .ok ⟨out.values.insert m.1 ⟨m.2, source, current.shadowed ++ [⟨current.value, current.source⟩]⟩⟩
  | none =>
    if isDeveloperKey m.1 then .ok ⟨out.values.insert m.1 ⟨m.2, source, []⟩⟩ else .error (.unknownKey m.1)

/-- What a source's value under a key becomes over the value that was there. -/
def cover (source : ConfigSource) (current : Option ResolvedValue) (value : ConfigValue) : ResolvedValue :=
  ⟨value, source, current.elim [] fun below => below.shadowed ++ [⟨below.value, below.source⟩]⟩

end ResolvedConfig

def applyLayer (isFile : List Char → Bool) (out : ResolvedConfig) (named : NamedLayer) :
    Except ConfigError ResolvedConfig := do
  named.layer.validate isFile
  named.layer.values.iter.foldlM (ResolvedConfig.apply named.source) out

/-- Resolve layers from the lowest to the highest priority. -/
def resolve (isFile : List Char → Bool) (layers : List NamedLayer) : Except ConfigError ResolvedConfig :=
  layers.foldlM (applyLayer isFile) ResolvedConfig.builtIn

section Iteration
variable {V : Type} {m : BTreeMap V} {entries : List (Key × V)} {key : Key} {v : V}

theorem lookup_iff_mem (h : (entries.map Prod.fst).Nodup) : entries.lookup key = some v ↔ (key, v) ∈ entries := by
  constructor
  · intro hlookup
    obtain ⟨before, after, heq, -⟩ := List.lookup_eq_some_iff.1 hlookup
    rw [heq]
    simp
  · induction entries with
    | nil => exact fun hmem => absurd hmem List.not_mem_nil
    | cons m entries ih =>
      rw [List.map_cons, List.nodup_cons] at h
      intro hmem
      rcases List.mem_cons.1 hmem with rfl | hmem
      · simp
      · have hne : (key == m.1) = false := by
          rw [beq_eq_false_iff_ne]
          rintro rfl
          exact h.1 (List.mem_map.2 ⟨_, hmem, rfl⟩)
        rw [List.lookup_cons, hne]
        exact ih h.2 hmem

theorem BTreeMap.iter_perm (m : BTreeMap V) : m.iter.Perm (m.entries.map fun e => (e.1, e.2)) :=
  List.perm_insertionSort _ _

theorem BTreeMap.mem_iter : (key, v) ∈ m.iter ↔ m.lookup key = some v := by
  rw [m.iter_perm.mem_iff, List.mem_map, ← Option.mem_def, AList.mem_lookup_iff]
  constructor
  · rintro ⟨e, he, heq⟩
    obtain ⟨rfl, rfl⟩ := Prod.mk.inj heq
    exact he
  · exact fun h => ⟨⟨key, v⟩, h, rfl⟩

theorem BTreeMap.iter_nodup (m : BTreeMap V) : (m.iter.map Prod.fst).Nodup := by
  rw [(m.iter_perm.map Prod.fst).nodup_iff, List.map_map]
  exact m.nodupKeys

theorem BTreeMap.lookup_iter (m : BTreeMap V) (key : Key) : m.iter.lookup key = m.lookup key := by
  ext v
  rw [lookup_iff_mem m.iter_nodup, mem_iter]

theorem BTreeMap.iter_sorted (m : BTreeMap V) : m.iter.Pairwise fun a b => a.1 < b.1 := by
  have hle : m.iter.Pairwise fun a b => a.1 ≤ b.1 := List.pairwise_insertionSort _ _
  have hne : m.iter.Pairwise fun a b => a.1 ≠ b.1 := List.pairwise_map.1 m.iter_nodup
  exact hle.imp₂ (fun _ _ => lt_of_le_of_ne) hne

theorem lookup_collect (h : (entries.map Prod.fst).Nodup) : (collect entries).lookup key = entries.lookup key := by
  have hfold : ∀ map : BTreeMap V, (entries.foldl (fun map m => map.insert m.1 m.2) map).lookup key =
      (entries.lookup key).or (map.lookup key) := by
    induction entries with
    | nil => exact fun _ => rfl
    | cons m entries ih =>
      rw [List.map_cons, List.nodup_cons] at h
      intro map
      rw [List.foldl_cons, ih h.2, List.lookup_cons]
      by_cases hk : key = m.1
      · have hnone : entries.lookup key = none := by
          rw [Option.eq_none_iff_forall_ne_some]
          intro v hv
          rw [lookup_iff_mem h.2, hk] at hv
          exact h.1 (List.mem_map.2 ⟨_, hv, rfl⟩)
        rw [hnone, hk, AList.lookup_insert]
        simp
      · rw [AList.lookup_insert_ne hk, beq_eq_false_iff_ne.2 hk]
  exact (hfold ∅).trans (by simp)

theorem mem_iter_collect (h : (entries.map Prod.fst).Nodup) (e : Key × V) :
    e ∈ (collect entries).iter ↔ e ∈ entries := by
  rw [← lookup_iff_mem h, ← lookup_collect h]
  exact BTreeMap.mem_iter

/-- Entries in the order of their keys are what the map of them is run through. -/
theorem iter_collect (h : entries.Pairwise fun a b => a.1 < b.1) : (collect entries).iter = entries := by
  have hnodup : (entries.map Prod.fst).Nodup := List.pairwise_map.2 (h.imp ne_of_lt)
  have hperm : (collect entries).iter.Perm entries :=
    (List.perm_ext_iff_of_nodup (collect entries).iter_nodup.of_map hnodup.of_map).2 (mem_iter_collect hnodup)
  exact hperm.eq_of_pairwise (fun a b _ _ hab hba => absurd hba (lt_asymm hab)) (collect entries).iter_sorted h

theorem forM_ok_iff {α ε : Type} (check : α → Except ε Unit) {l : List α} :
    l.forM check = .ok () ↔ ∀ a ∈ l, check a = .ok () := by
  induction l with
  | nil => exact ⟨fun _ _ h => absurd h List.not_mem_nil, fun _ => rfl⟩
  | cons a l ih =>
    rw [List.forall_mem_cons, ← ih]
    change ((check a).bind fun _ => l.forM check) = .ok () ↔ _
    cases check a with
    | error e => simp [Except.bind]
    | ok u => simp [Except.bind]

end Iteration

section Resolving
variable {source : ConfigSource} {out out' : ResolvedConfig} {entries : List (Key × ConfigValue)}

namespace ResolvedConfig

/-- One value goes in where its key is there or is a developer key, and covers the value under its key only. -/
theorem apply_ok (source : ConfigSource) (m : Key × ConfigValue)
    (h : (out.values.lookup m.1).isSome ∨ isDeveloperKey m.1 = true) :
    ∃ out', apply source out m = .ok out' ∧ ∀ key, out'.values.lookup key =
      if key = m.1 then some (cover source (out.values.lookup m.1) m.2) else out.values.lookup key := by
  have hinsert : ∀ (r : ResolvedValue) key,
      (out.values.insert m.1 r).lookup key = if key = m.1 then some r else out.values.lookup key := by
    intro r key
    by_cases hk : key = m.1
    · rw [if_pos hk, hk, AList.lookup_insert]
    · rw [if_neg hk, AList.lookup_insert_ne hk]
  unfold apply
  cases hcurrent : out.values.lookup m.1 with
  | some current => exact ⟨_, rfl, hinsert _⟩
  | none =>
    rw [hcurrent] at h
    rw [h.resolve_left (by simp)]
    exact ⟨_, rfl, hinsert _⟩

theorem apply_needs {m : Key × ConfigValue} (h : apply source out m = .ok out') :
    (out.values.lookup m.1).isSome ∨ isDeveloperKey m.1 = true := by
  unfold apply at h
  cases hcurrent : out.values.lookup m.1 with
  | some current => exact .inl rfl
  | none =>
    rw [hcurrent] at h
    by_cases hdev : isDeveloperKey m.1 = true
    · exact .inr hdev
    · rw [if_neg hdev] at h
      cases h

/-- A layer's values go in where all their keys are there or developer keys. -/
theorem foldlM_apply_ok (source : ConfigSource) (out : ResolvedConfig) (hnodup : (entries.map Prod.fst).Nodup)
    (h : ∀ m ∈ entries, (out.values.lookup m.1).isSome ∨ isDeveloperKey m.1 = true) :
    ∃ out', entries.foldlM (apply source) out = .ok out' ∧ ∀ key, out'.values.lookup key =
      ((entries.lookup key).map (cover source (out.values.lookup key))).or (out.values.lookup key) := by
  induction entries generalizing out with
  | nil => exact ⟨out, rfl, fun _ => rfl⟩
  | cons m entries ih =>
    rw [List.map_cons, List.nodup_cons] at hnodup
    obtain ⟨mid, hmid, hvalue⟩ := apply_ok source m (h m List.mem_cons_self)
    have hrest : ∀ n ∈ entries, (mid.values.lookup n.1).isSome ∨ isDeveloperKey n.1 = true := by
      intro n hn
      refine (h n (List.mem_cons_of_mem m hn)).imp_left fun hsome => ?_
      rw [hvalue]
      split_ifs
      · rfl
      · exact hsome
    obtain ⟨out', hout, hvalues⟩ := ih mid hnodup.2 hrest
    refine ⟨out', ?_, fun key => ?_⟩
    · rw [List.foldlM_cons, hmid]
      exact hout
    · rw [hvalues, hvalue, List.lookup_cons]
      by_cases hk : key = m.1
      · have hnone : entries.lookup key = none := by
          rw [List.lookup_eq_none_iff]
          intro n hn
          rw [bne_iff_ne]
          rintro rfl
          exact hnodup.1 (hk ▸ List.mem_map_of_mem hn)
        rw [hnone, if_pos hk, hk]
        simp
      · rw [if_neg hk, beq_eq_false_iff_ne.2 hk]

theorem foldlM_apply_needs (h : entries.foldlM (apply source) out = .ok out') :
    ∀ m ∈ entries, (out.values.lookup m.1).isSome ∨ isDeveloperKey m.1 = true := by
  induction entries generalizing out with
  | nil => exact fun m hm => absurd hm List.not_mem_nil
  | cons n entries ih =>
    rw [List.foldlM_cons] at h
    cases hmid : apply source out n with
    | error e =>
      rw [hmid] at h
      cases h
    | ok mid =>
      rw [hmid] at h
      have hneeds := apply_needs hmid
      obtain ⟨mid', hmid', hvalue⟩ := apply_ok source n hneeds
      rw [hmid] at hmid'
      obtain rfl := Except.ok.inj hmid'
      intro m hm
      rcases List.mem_cons.1 hm with rfl | hm
      · exact hneeds
      · rcases ih h m hm with hsome | hdev
        · rw [hvalue] at hsome
          split_ifs at hsome with hk
          · rwa [hk]
          · exact .inl hsome
        · exact .inr hdev

end ResolvedConfig
end Resolving
end Hipscope.Config

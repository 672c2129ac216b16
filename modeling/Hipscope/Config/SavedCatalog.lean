import Hipscope.Config.Stack
import Hipscope.Lists.Traverse

/-! A catalog written to a table and read back, and what layers resolve to over what files give back of them. -/
namespace Hipscope.Config
open Nested

section Relations
variable {V W : Type}

/-- Entries under the same keys with related values. -/
def SameKeys (R : V → W → Prop) (a : Key × V) (b : Key × W) : Prop := b.1 = a.1 ∧ R a.2 b.2

variable {R : V → W → Prop} {entries : List (Key × V)} {entries' : List (Key × W)}

theorem sameKeys_map_fst (h : List.Forall₂ (SameKeys R) entries entries') :
    entries'.map Prod.fst = entries.map Prod.fst := by
  induction h with
  | nil => rfl
  | cons hab _ ih => rw [List.map_cons, List.map_cons, hab.1, ih]

theorem sameKeys_lookup (h : List.Forall₂ (SameKeys R) entries entries') (key : Key) :
    Option.Rel R (entries.lookup key) (entries'.lookup key) := by
  induction h with
  | nil => exact .none
  | cons hab _ ih =>
    rw [List.lookup_cons, List.lookup_cons, hab.1]
    split
    · exact .some hab.2
    · exact ih

/-- The map of entries under the keys of another map. -/
theorem collect_sameKeys {map : BTreeMap V} (h : List.Forall₂ (SameKeys R) map.iter entries') :
    (collect entries').iter = entries' ∧ ∀ key, Option.Rel R (map.lookup key) ((collect entries').lookup key) := by
  have hkeys := sameKeys_map_fst h
  have hsorted : entries'.Pairwise fun a b => a.1 < b.1 := by
    rw [← List.pairwise_map, hkeys, List.pairwise_map]
    exact map.iter_sorted
  refine ⟨iter_collect hsorted, fun key => ?_⟩
  rw [← map.lookup_iter, lookup_collect (hkeys ▸ map.iter_nodup)]
  exact sameKeys_lookup h key

end Relations

section Models
variable {isFile : List Char → Bool} {layer layer' : ConfigLayer} {model model' : LocalModelConfig} {id : Key}

theorem validateModelLayer_iff : validateModelLayer isFile layer = .ok () ↔
    layer.validate isFile = .ok () ∧ ∀ m ∈ layer.values.iter, validateModelKey m.1 = .ok () := by
  unfold validateModelLayer
  rw [← forM_ok_iff fun m : Key × ConfigValue => validateModelKey m.1]
  cases layer.validate isFile with
  | error e => simp [bind, Except.bind]
  | ok u => simp [bind, Except.bind]

theorem validateModelKey_canonical {key canonical : Key} (h : validateModelKey key = .ok ())
    (hcanonical : canonicalConfigKey key = some canonical) : validateModelKey canonical = .ok () := by
  rcases canonicalConfigKey_cases hcanonical with ⟨f, hf, hfield, rfl⟩ | ⟨-, rfl⟩
  · have hkey := field_key hf
    have hdev : isDeveloperKey f.key ≠ true := by
      intro hdev
      rw [field_developer hdev] at hkey
      cases hkey
    unfold validateModelKey at h ⊢
    rw [hfield] at h
    rw [hkey, if_neg hdev]
    split_ifs at h ⊢
    rfl
  · exact h

theorem Reloaded.validateModelLayer (hreloaded : Reloaded layer layer')
    (h : Config.validateModelLayer isFile layer = .ok ()) : Config.validateModelLayer isFile layer' = .ok () := by
  rw [validateModelLayer_iff] at h ⊢
  refine ⟨hreloaded.validate h.1, fun m hm => ?_⟩
  obtain ⟨key, hkey, hcanonical⟩ := hreloaded.source m.1 m.2 (BTreeMap.mem_iter.1 hm)
  exact validateModelKey_canonical (h.2 (key, m.2) (BTreeMap.mem_iter.2 hkey)) hcanonical

/-- What a file gives back of a model. -/
structure SavedModel (model model' : LocalModelConfig) : Prop where
  path : model'.path = model.path
  registryTag : model'.registryTag = model.registryTag
  overrides : Reloaded model.overrides model'.overrides

/-- The record of a model. -/
def recordOf (model : LocalModelConfig) (overrides : Option TomlTable) : TomlTable :=
  (model.path.toList.map fun path => ("path".toList, .leaf (.string path))) ++
    (model.registryTag.toList.map fun tag => ("registry_tag".toList, .leaf (.string tag))) ++
    overrides.toList.map fun table => ("overrides".toList, .table table)

private theorem path_ne_tag : "path".toList ≠ "registry_tag".toList := by decide

private theorem path_ne_overrides : "path".toList ≠ "overrides".toList := by decide

private theorem tag_ne_overrides : "registry_tag".toList ≠ "overrides".toList := by decide

theorem recordOf_lookup (model : LocalModelConfig) (overrides : Option TomlTable) :
    (recordOf model overrides).lookup "path".toList = model.path.map (.leaf <| .string ·) ∧
      (recordOf model overrides).lookup "registry_tag".toList = model.registryTag.map (.leaf <| .string ·) ∧
      (recordOf model overrides).lookup "overrides".toList = overrides.map .table ∧
      ((recordOf model overrides).map Prod.fst).filter (fun key => !recordKeys.contains key) = [] := by
  obtain ⟨path, tag, layer⟩ := model
  unfold recordOf recordKeys
  have hpath := path_ne_tag
  have hpath' := path_ne_overrides
  have htag := tag_ne_overrides
  generalize "path".toList = pathKey at *
  generalize "registry_tag".toList = tagKey at *
  generalize "overrides".toList = overridesKey at *
  cases path <;> cases tag <;> cases overrides <;>
    simp [List.lookup_cons, beq_eq_false_iff_ne.2, hpath, hpath.symm, hpath', hpath'.symm, htag, htag.symm]

theorem readField_ok {record : TomlTable} {name : Key} {field : Option (List Char)}
    (h : record.lookup name = field.map (.leaf <| .string ·)) (id : Key) : readField record id name = .ok field := by
  unfold readField
  rw [h]
  cases field <;> rfl

/-- A record with a model's path and tag, and with overrides that read back, is read back. -/
theorem readModel_ok {overrides : Option TomlTable}
    (h : readOverrides isFile (recordOf model overrides) id = .ok layer')
    (hvalid : Config.validateModelLayer isFile layer' = .ok ()) :
    readModel isFile (id, .table (recordOf model overrides)) = .ok (id, ⟨model.path, model.registryTag, layer'⟩) := by
  obtain ⟨hpath, htag, -, hunknown⟩ := recordOf_lookup model overrides
  unfold readModel
  simp only [readTable, asTable, bind, Except.bind, hunknown, List.isEmpty_nil, if_true, readField_ok hpath,
    readField_ok htag, h, hvalid]

/-- A model whose overrides have no clash is written to a record that is read back. -/
theorem writeModel_ok (id : Key) (h : Config.validateModelLayer isFile model.overrides = .ok ())
    (hclash : Unclashed model.overrides.values.iter) :
    ∃ record, writeModel (id, model) = .ok (id, record) ∧
      ∃ model', readModel isFile (id, record) = .ok (id, model') ∧
        Config.validateModelLayer isFile model'.overrides = .ok () ∧ SavedModel model model' := by
  have hvalid := (validateModelLayer_iff.1 h).1
  have hknown : ∀ m ∈ model.overrides.values.iter, Known m.1 := fun m hm =>
    validateEntry_known (validate_iff.1 hvalid m hm)
  obtain ⟨table, hwrite, hleaves⟩ := writeEntries_ok [] hknown model.overrides.values.iter_nodup hclash
    (by simp [leaves])
  obtain ⟨flat, hflatten, hflat⟩ := flattenToml_written hknown (by simp [leaves]) hleaves
  obtain ⟨overrides', hset, hreloaded⟩ := setAll_reloaded hvalid hflat
  have hvalid' := hreloaded.validateModelLayer h
  have hread : ∀ overrides, readOverrides isFile (recordOf model overrides) id = .ok overrides' →
      ∃ model', readModel isFile (id, .table (recordOf model overrides)) = .ok (id, model') ∧
        Config.validateModelLayer isFile model'.overrides = .ok () ∧ SavedModel model model' := fun overrides hover =>
    ⟨_, readModel_ok hover hvalid', hvalid', ⟨rfl, rfl, hreloaded⟩⟩
  by_cases hempty : model.overrides.values.iter.isEmpty = true
  · -- a model without overrides has no table for them
    refine ⟨.table (recordOf model none), ?_, hread none ?_⟩
    · unfold writeModel
      simp only [hempty, if_true, bind, Except.bind]
      rfl
    · rw [List.isEmpty_iff.1 hempty] at hflat
      rw [hflat.eq_nil] at hset
      unfold readOverrides
      rw [(recordOf_lookup model none).2.2.1]
      exact hset
  · refine ⟨.table (recordOf model (some table)), ?_, hread (some table) ?_⟩
    · unfold writeModel
      simp only [hempty, hwrite, bind, Except.bind]
      rfl
    · unfold readOverrides
      rw [(recordOf_lookup model (some table)).2.2.1]
      simp only [Option.map_some, readTable, asTable, bind, Except.bind, hflatten]
      exact hset

end Models

section Catalog
variable {isFile : List Char → Bool} {catalog : ModelCatalog} {paths paths' : List (List Char)}
  {models models' : List (Key × LocalModelConfig)}

theorem validateModel_layer {m : Key × LocalModelConfig} (h : validateModel isFile paths m = .ok paths') :
    validateModelLayer isFile m.2.overrides = .ok () := by
  unfold validateModel at h
  split_ifs at h
  obtain ⟨seen, -, h⟩ := bind_ok h
  obtain ⟨⟨⟩, hlayer, -⟩ := bind_ok h
  exact hlayer

/-- Checking a model looks at its identity, its path and its overrides. -/
theorem validateModel_congr {m m' : Key × LocalModelConfig} (hid : m'.1 = m.1) (hpath : m'.2.path = m.2.path)
    (hvalid : validateModelLayer isFile m'.2.overrides = .ok ()) (h : validateModel isFile paths m = .ok paths') :
    validateModel isFile paths m' = .ok paths' := by
  have hseen : validateModelPath paths m' = validateModelPath paths m := by
    unfold validateModelPath
    rw [hid, hpath]
  unfold validateModel at h ⊢
  rw [hid, hseen]
  by_cases hname : (Dsml.trim m.1).isEmpty = true
  · rw [if_pos hname] at h
    cases h
  · rw [if_neg hname] at h ⊢
    obtain ⟨seen, hpaths, h⟩ := bind_ok h
    obtain ⟨⟨⟩, -, h⟩ := bind_ok h
    rw [hpaths, hvalid]
    exact h

/-- Models read back are valid together where the models are. -/
theorem foldlM_validateModel (h : List.Forall₂ (SameKeys fun model model' =>
      validateModelLayer isFile model'.overrides = .ok () ∧ SavedModel model model') models models')
    (hvalid : models.foldlM (validateModel isFile) paths = .ok paths') :
    models'.foldlM (validateModel isFile) paths = .ok paths' := by
  induction h generalizing paths with
  | nil => exact hvalid
  | cons hm _ ih =>
    rw [List.foldlM_cons] at hvalid ⊢
    obtain ⟨mid, hmid, hrest⟩ := bind_ok hvalid
    rw [(validateModel_congr hm.1 hm.2.2.path hm.2.1 hmid)]
    exact ih hrest

theorem foldlM_validateModel_layer (hvalid : models.foldlM (validateModel isFile) paths = .ok paths') :
    ∀ m ∈ models, validateModelLayer isFile m.2.overrides = .ok () := by
  induction models generalizing paths with
  | nil => exact fun m hm => absurd hm List.not_mem_nil
  | cons n models ih =>
    rw [List.foldlM_cons] at hvalid
    obtain ⟨mid, hmid, hrest⟩ := bind_ok hvalid
    exact List.forall_mem_cons.2 ⟨validateModel_layer hmid, ih hrest⟩

theorem mapM_readAlias (aliases : List (Key × List Char)) :
    (aliases.map fun m => (m.1, Node.leaf (.string m.2))).mapM readAlias = .ok aliases := by
  induction aliases with
  | nil => rfl
  | cons m aliases ih =>
    rw [List.map_cons, List.mapM_cons, ih]
    rfl

/-- Checking an alias looks at the identities of the models. -/
theorem validateAlias_congr {known known' : BTreeMap LocalModelConfig} {R : LocalModelConfig → LocalModelConfig → Prop}
    (h : ∀ id, Option.Rel R (known.lookup id) (known'.lookup id)) (m : Key × List Char) :
    validateAlias known' m = validateAlias known m := by
  have hnone : (known'.lookup m.2).isNone = (known.lookup m.2).isNone := by
    have hrel := h m.2
    generalize known.lookup m.2 = model at *
    generalize known'.lookup m.2 = model' at *
    cases hrel <;> rfl
  unfold validateAlias
  rw [hnone]

/-- The table of a catalog. -/
def rootOf (aliases models : TomlTable) : TomlTable :=
  (schemaVersionKey, .leaf (.integer configSchemaVersion)) ::
    (if aliases.isEmpty then [] else [("aliases".toList, .table aliases)]) ++
    (if models.isEmpty then [] else [("models".toList, .table models)])

private theorem version_ne_aliases : schemaVersionKey ≠ "aliases".toList := by decide

private theorem version_ne_models : schemaVersionKey ≠ "models".toList := by decide

private theorem aliases_ne_models : "aliases".toList ≠ "models".toList := by decide

theorem rootOf_lookup (aliases models : TomlTable) :
    (rootOf aliases models).lookup schemaVersionKey = some (.leaf (.integer configSchemaVersion)) ∧
      ((rootOf aliases models).lookup "aliases".toList).getD (.table []) = .table aliases ∧
      ((rootOf aliases models).lookup "models".toList).getD (.table []) = .table models ∧
      ((rootOf aliases models).map Prod.fst).filter (fun key => !rootKeys.contains key) = [] := by
  unfold rootOf rootKeys
  have hversion := version_ne_aliases
  have hversion' := version_ne_models
  have haliases := aliases_ne_models
  generalize schemaVersionKey = versionKey at *
  generalize "aliases".toList = aliasesKey at *
  generalize "models".toList = modelsKey at *
  cases aliases <;> cases models <;>
    simp [List.lookup_cons, beq_eq_false_iff_ne.2, hversion, hversion.symm, hversion', hversion'.symm, haliases,
      haliases.symm]

/-- What a file gives back of a catalog. -/
structure SavedCatalog (catalog catalog' : ModelCatalog) : Prop where
  aliases : ∀ name, catalog'.aliases.lookup name = catalog.aliases.lookup name
  models : ∀ id, Option.Rel SavedModel (catalog.models.lookup id) (catalog'.models.lookup id)

/-- A catalog that is valid and whose overrides have no clash is written and read back. -/
theorem catalog_saved (h : catalog.validate isFile = .ok ())
    (hclash : ∀ m ∈ catalog.models.iter, Unclashed m.2.overrides.values.iter) :
    ∃ root catalog', writeCatalogToml isFile catalog = .ok root ∧ loadCatalogToml isFile root = .ok catalog' ∧
      SavedCatalog catalog catalog' := by
  obtain ⟨paths, hmodels, haliases⟩ := bind_ok h
  have hlayers := foldlM_validateModel_layer hmodels
  obtain ⟨records, hwrite, hrecords⟩ := Lists.forall₂_mapM (f := writeModel) (m := catalog.models.iter)
    (S := fun m record => ∃ m', readModel isFile record = .ok m' ∧ SameKeys (fun model model' =>
      validateModelLayer isFile model'.overrides = .ok () ∧ SavedModel model model') m m')
    (List.forall₂_same.2 fun m hm => by
      obtain ⟨record, hrecord, model', hread, hvalid, hsaved⟩ := writeModel_ok m.1 (hlayers m hm) (hclash m hm)
      exact ⟨_, hrecord, _, hread, rfl, hvalid, hsaved⟩)
  obtain ⟨models', hread, hmodels'⟩ := Lists.forall₂_mapM hrecords
  obtain ⟨hiter, hlookup⟩ := collect_sameKeys
    (hmodels'.imp fun _ _ hm => (⟨hm.1, hm.2.2⟩ : SameKeys SavedModel _ _))
  have haliases' : (collect catalog.aliases.iter).iter = catalog.aliases.iter := iter_collect catalog.aliases.iter_sorted
  have hnames : ∀ name, (collect catalog.aliases.iter).lookup name = catalog.aliases.lookup name := fun name => by
    rw [lookup_collect catalog.aliases.iter_nodup, BTreeMap.lookup_iter]
  obtain ⟨hversion, haliasesTable, hmodelsTable, hunknown⟩ :=
    rootOf_lookup (catalog.aliases.iter.map fun m => (m.1, .leaf (.string m.2))) records
  refine ⟨rootOf (catalog.aliases.iter.map fun m => (m.1, .leaf (.string m.2))) records,
    ⟨collect catalog.aliases.iter, collect models'⟩, ?_, ?_, hnames, hlookup⟩
  · unfold writeCatalogToml
    rw [h, hwrite]
    rfl
  · have hvalid : (⟨collect catalog.aliases.iter, collect models'⟩ : ModelCatalog).validate isFile = .ok () := by
      unfold ModelCatalog.validate
      rw [hiter, foldlM_validateModel hmodels' hmodels, haliases']
      refine (forM_ok_iff _).2 fun m hm => ?_
      rw [validateAlias_congr hlookup]
      exact (forM_ok_iff _).1 haliases m hm
    unfold loadCatalogToml
    rw [hversion, haliasesTable, hmodelsTable, hunknown]
    simp only [readTable, asTable, bind, Except.bind, mapM_readAlias, hread, hvalid, Option.bind_some, asInteger,
      Option.getD_some, if_true, List.isEmpty_nil]

end Catalog
end Hipscope.Config

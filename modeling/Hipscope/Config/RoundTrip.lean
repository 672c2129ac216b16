import Hipscope.Config.SavedCatalog

/-! Saving keeps what a configuration means where no null value and no clash of keys stands in the way. -/
namespace Hipscope.Config

variable {isFile : List Char → Bool} {layer layer' : ConfigLayer} {below above : List NamedLayer}
  {source : ConfigSource} {out : ResolvedConfig}

/-- In every stack that resolves, the other layer in place of the first leaves every resolved value as it is. -/
def KeepsStacks (isFile : List Char → Bool) (layer layer' : ConfigLayer) : Prop :=
  ∀ below source above out, resolve isFile (below ++ ⟨source, layer⟩ :: above) = .ok out →
    ∃ out', resolve isFile (below ++ ⟨source, layer'⟩ :: above) = .ok out' ∧
      ∀ key, out'.values.lookup key = out.values.lookup key

/-- A layer is written, and what is read back keeps every stack. -/
def SavesLayer (isFile : List Char → Bool) (layer : ConfigLayer) : Prop :=
  ∃ table layer', writeLayerToml isFile layer = .ok table ∧ loadTomlLayer isFile table = .ok layer' ∧
    KeepsStacks isFile layer layer'

/-- A catalog is written, and what is read back has its names, identities, paths and tags, and overrides that keep
every stack. -/
def SavesCatalog (isFile : List Char → Bool) (catalog : ModelCatalog) : Prop :=
  ∃ root catalog', writeCatalogToml isFile catalog = .ok root ∧ loadCatalogToml isFile root = .ok catalog' ∧
    (∀ name, catalog'.aliases.lookup name = catalog.aliases.lookup name) ∧
    ∀ id, Option.Rel (fun model model' => model'.path = model.path ∧ model'.registryTag = model.registryTag ∧
      KeepsStacks isFile model.overrides model'.overrides)
      (catalog.models.lookup id) (catalog'.models.lookup id)

/-- No clash, and no null but in a layer that no stack takes because of a legacy key. -/
structure Saveable (layer : ConfigLayer) : Prop where
  unclashed : Unclashed layer.values.iter
  nullfree : Canonical layer.values → ∀ key, layer.values.lookup key ≠ some .null

/-- What a file gives back of a layer goes into every stack that takes the layer, and leaves what is resolved but
under keys set to null. -/
theorem Reloaded.resolve (hreloaded : Reloaded layer layer')
    (h : Config.resolve isFile (below ++ ⟨source, layer⟩ :: above) = .ok out) : Canonical layer.values ∧
      ∃ out', Config.resolve isFile (below ++ ⟨source, layer'⟩ :: above) = .ok out' ∧
        ∀ key, layer.values.lookup key ≠ some .null → out'.values.lookup key = out.values.lookup key := by
  unfold Config.resolve at h ⊢
  rw [List.foldlM_append] at h ⊢
  obtain ⟨mid, hbelow, h⟩ := bind_ok h
  rw [List.foldlM_cons] at h
  obtain ⟨a, hlayer, habove⟩ := bind_ok h
  have hcanonical := foldlM_applyLayer_canonical hbelow builtIn_canonical
  obtain ⟨b, hlayer', halike⟩ := hreloaded.applyLayer hcanonical hlayer
  obtain ⟨out', habove', halike'⟩ := halike.foldlM habove
  have hstack : (⟨source, layer'⟩ :: above).foldlM (Config.applyLayer isFile) mid = .ok out' := by
    rw [List.foldlM_cons, hlayer']
    exact habove'
  refine ⟨(applyLayer_canonical hlayer hcanonical).1, out', ?_, halike'.values⟩
  rw [hbelow]
  exact hstack

/-- A valid layer under canonical keys goes over the defaults. -/
theorem applyLayer_builtIn (named : NamedLayer) (hvalid : named.layer.validate isFile = .ok ())
    (hcanonical : Canonical named.layer.values) : ∃ out, applyLayer isFile ResolvedConfig.builtIn named = .ok out := by
  refine applyLayer_ok _ named hvalid fun key hkey => ?_
  rcases canonicalConfigKey_cases (hcanonical key hkey) with ⟨f, hf, -, hfield⟩ | ⟨hdev, -⟩
  · exact .inl (builtIn_keys.2 ⟨f, hf, hfield⟩)
  · exact .inr hdev

/-- What a file gives back keeps every stack exactly if nothing was null: a null alone over the defaults is
resolved to, and without it the default is. -/
theorem Reloaded.keepsStacks_iff (hreloaded : Reloaded layer layer') (hvalid : layer.validate isFile = .ok ()) :
    KeepsStacks isFile layer layer' ↔ (Canonical layer.values → ∀ key, layer.values.lookup key ≠ some .null) := by
  constructor
  · intro hkeeps hcanonical key hnull
    obtain ⟨out, hout⟩ := applyLayer_builtIn ⟨.globalUser [], layer⟩ hvalid hcanonical
    obtain ⟨out', hout', hsame⟩ := hkeeps [] (.globalUser []) [] out (by
      rw [List.nil_append, Config.resolve, List.foldlM_cons, hout]
      rfl)
    rw [List.nil_append, Config.resolve, List.foldlM_cons] at hout'
    obtain ⟨laid, hlaid, hout'⟩ := bind_ok hout'
    obtain rfl := Except.ok.inj hout'
    have hvalue := hsame key
    rw [applyLayer_lookup hout, applyLayer_lookup hlaid, hreloaded.exact hcanonical, hnull] at hvalue
    have hsource := builtIn_source hvalue
    cases hsource
  · intro hnull below source above out h
    obtain ⟨hcanonical, out', hout', hvalues⟩ := hreloaded.resolve h
    exact ⟨out', hout', fun key => hvalues key (hnull hcanonical key)⟩

theorem savesLayer_iff (hvalid : layer.validate isFile = .ok ()) : SavesLayer isFile layer ↔ Saveable layer := by
  constructor
  · rintro ⟨table, layer', hwrite, hload, hkeeps⟩
    have hunclashed : Unclashed layer.values.iter := by
      unfold writeLayerToml at hwrite
      obtain ⟨⟨⟩, -, hwritten⟩ := bind_ok hwrite
      exact unclashed_of_written layer.values.iter_sorted hwritten
    obtain ⟨table', layer'', hwrite', hload', hreloaded⟩ := layer_saved hvalid hunclashed
    obtain rfl := Except.ok.inj (hwrite.symm.trans hwrite')
    obtain rfl := Except.ok.inj (hload.symm.trans hload')
    exact ⟨hunclashed, (hreloaded.keepsStacks_iff hvalid).1 hkeeps⟩
  · intro h
    obtain ⟨table, layer', hwrite, hload, hreloaded⟩ := layer_saved hvalid h.unclashed
    exact ⟨table, layer', hwrite, hload, (hreloaded.keepsStacks_iff hvalid).2 h.nullfree⟩

theorem writeModel_unclashed {m : Key × LocalModelConfig} {record : Key × TomlValue}
    (h : writeModel m = .ok record) : Unclashed m.2.overrides.values.iter := by
  by_cases hempty : m.2.overrides.values.iter.isEmpty = true
  · rw [List.isEmpty_iff.1 hempty]
    exact fun m hm => absurd hm List.not_mem_nil
  · unfold writeModel at h
    simp only [hempty] at h
    obtain ⟨table, htable, -⟩ := bind_ok h
    exact unclashed_of_written m.2.overrides.values.iter_sorted htable

theorem overrides_valid {catalog : ModelCatalog} (h : catalog.validate isFile = .ok ()) :
    ∀ m ∈ catalog.models.iter, m.2.overrides.validate isFile = .ok () := by
  obtain ⟨paths, hmodels, -⟩ := bind_ok h
  exact fun m hm => (validateModelLayer_iff.1 (foldlM_validateModel_layer hmodels m hm)).1

theorem savesCatalog_iff {catalog : ModelCatalog} (hvalid : catalog.validate isFile = .ok ()) :
    SavesCatalog isFile catalog ↔ ∀ m ∈ catalog.models.iter, Saveable m.2.overrides := by
  have hlayers := overrides_valid hvalid
  constructor
  · rintro ⟨root, catalog', hwrite, hload, -, hmodels⟩
    have hunclashed : ∀ m ∈ catalog.models.iter, Unclashed m.2.overrides.values.iter := by
      unfold writeCatalogToml at hwrite
      obtain ⟨⟨⟩, -, hwritten⟩ := bind_ok hwrite
      obtain ⟨records, hrecords, -⟩ := bind_ok hwritten
      intro m hm
      obtain ⟨i, hi⟩ := List.getElem?_of_mem hm
      obtain ⟨record, -, hrecord⟩ := Lists.mapM_getElem?_left hrecords hi
      exact writeModel_unclashed hrecord
    obtain ⟨root', catalog'', hwrite', hload', hsaved⟩ := catalog_saved hvalid hunclashed
    obtain rfl := Except.ok.inj (hwrite.symm.trans hwrite')
    obtain rfl := Except.ok.inj (hload.symm.trans hload')
    intro m hm
    have hkept := hmodels m.1
    have hreloaded := hsaved.models m.1
    rw [BTreeMap.mem_iter.1 hm] at hkept hreloaded
    generalize catalog'.models.lookup m.1 = model' at hkept hreloaded
    cases hkept with
    | some hkept =>
      cases hreloaded with
      | some hreloaded =>
        exact ⟨hunclashed m hm, (hreloaded.overrides.keepsStacks_iff (hlayers m hm)).1 hkept.2.2⟩
  · intro h
    obtain ⟨root, catalog', hwrite, hload, hsaved⟩ := catalog_saved hvalid fun m hm => (h m hm).unclashed
    refine ⟨root, catalog', hwrite, hload, hsaved.aliases, fun id => ?_⟩
    have hmodel := hsaved.models id
    cases hlookup : catalog.models.lookup id with
    | none =>
      rw [hlookup] at hmodel
      generalize catalog'.models.lookup id = model' at hmodel ⊢
      cases hmodel
      exact .none
    | some model =>
      have hm := BTreeMap.mem_iter.2 hlookup
      rw [hlookup] at hmodel
      generalize catalog'.models.lookup id = model' at hmodel ⊢
      cases hmodel with
      | some hreloaded =>
        have hkeeps := (hreloaded.overrides.keepsStacks_iff (hlayers _ hm)).2 (h _ hm).nullfree
        exact .some ⟨hreloaded.path, hreloaded.registryTag, hkeeps⟩

/-- A valid layer keeps its meaning when it is saved exactly where it has no clash and no null, and so does a valid
catalog of such layers, whose aliases, identities, paths and tags come back. -/
theorem saving_keeps_meaning_iff (isFile : List Char → Bool) :
    (∀ layer : ConfigLayer, layer.validate isFile = .ok () → (SavesLayer isFile layer ↔ Saveable layer)) ∧
    ∀ catalog : ModelCatalog, catalog.validate isFile = .ok () →
      (SavesCatalog isFile catalog ↔ ∀ m ∈ catalog.models.iter, Saveable m.2.overrides) :=
  ⟨fun _ => savesLayer_iff, fun _ => savesCatalog_iff⟩

section Null

/-- The number of experts of a model, unset by null. -/
def expertsField : ConfigField :=
  entry "model.deepseek4_experts_per_token" "deepseek4_experts_per_token" .modelLoad .null (.nullableInteger 1 6)

theorem expertsField_mem : expertsField ∈ schemaFields := List.mem_of_getElem? (i := 2) rfl

/-- The number of experts set, and unset in a layer above. -/
def fourExperts : ConfigLayer := ⟨collect [(expertsField.key, .integer 4)]⟩

def noExperts : ConfigLayer := ⟨collect [(expertsField.key, .null)]⟩

/-- One model, with an override. -/
def catalogOf (overrides : ConfigLayer) : ModelCatalog := ⟨∅, collect [(['m'], ⟨none, none, overrides⟩)]⟩

theorem iter_single {V : Type} (key : Key) (value : V) : (collect [(key, value)]).iter = [(key, value)] :=
  iter_collect (List.pairwise_singleton _ _)

theorem lookup_single {V : Type} {key key' : Key} {value : V} :
    (collect [(key, value)]).lookup key' = if key' = key then some value else none := by
  rw [← BTreeMap.lookup_iter, iter_single, List.lookup_cons]
  by_cases h : key' = key
  · rw [if_pos h, beq_iff_eq.2 h]
  · rw [if_neg h, beq_eq_false_iff_ne.2 h]
    rfl

theorem single_valid {value : ConfigValue} (h : expertsField.rule.accepts isFile value = true) :
    (⟨collect [(expertsField.key, value)]⟩ : ConfigLayer).validate isFile = .ok () := by
  rw [validate_iff, iter_single, List.forall_mem_singleton]
  unfold validateEntry
  rw [field_key expertsField_mem]
  exact if_pos h

/-- One value under a dotted key has no clash. -/
theorem single_unclashed (value : ConfigValue) : Unclashed (collect [(expertsField.key, value)]).iter := by
  rw [iter_single]
  intro m hm n _ _ _ h
  obtain rfl := List.mem_singleton.1 hm
  have hnone := (schema_wellKeyed expertsField expertsField_mem).noTable
  have hkey : expertsField.key = speculationKey := h.1
  rw [hkey] at hnone
  exact hnone (by decide)

theorem fourExperts_saved : ∃ table layer', writeLayerToml (fun _ => false) fourExperts = .ok table ∧
    loadTomlLayer (fun _ => false) table = .ok layer' ∧ KeepsStacks (fun _ => false) fourExperts layer' := by
  refine ((saving_keeps_meaning_iff fun _ => false).1 fourExperts (single_valid rfl)).2 ⟨single_unclashed _, ?_⟩
  intro _ key h
  rw [fourExperts, lookup_single] at h
  split_ifs at h
  cases h

theorem catalogOf_valid {value : ConfigValue} (h : expertsField.rule.accepts isFile value = true) :
    (catalogOf ⟨collect [(expertsField.key, value)]⟩).validate isFile = .ok () := by
  have hlayer : validateModelLayer isFile ⟨collect [(expertsField.key, value)]⟩ = .ok () := by
    rw [validateModelLayer_iff, iter_single, List.forall_mem_singleton]
    refine ⟨single_valid h, ?_⟩
    have hdev : isDeveloperKey expertsField.key ≠ true := by
      intro hdev
      have hnone := field_developer hdev
      rw [field_key expertsField_mem] at hnone
      cases hnone
    unfold validateModelKey
    rw [if_neg hdev, field_key expertsField_mem]
    rfl
  unfold ModelCatalog.validate catalogOf
  rw [iter_single, List.foldlM_cons]
  have hname : ¬ (Dsml.trim ['m']).isEmpty = true := by decide
  unfold validateModel
  rw [if_neg hname, hlayer]
  rfl

theorem applyLayer_value {out' : ResolvedConfig} {named : NamedLayer} (h : applyLayer isFile out named = .ok out')
    (key : Key) : (out'.values.lookup key).map ResolvedValue.value =
      (named.layer.values.lookup key).or ((out.values.lookup key).map ResolvedValue.value) := by
  have hcover : ResolvedValue.value ∘ ResolvedConfig.cover named.source (out.values.lookup key) = id := rfl
  rw [applyLayer_lookup h, Option.map_or, Option.map_map, hcover, Option.map_id_fun, id]

/-- What two layers that say nothing else resolve the number of experts to. -/
theorem resolve_experts {a b : NamedLayer} (ha : a.layer.validate isFile = .ok ())
    (hb : b.layer.validate isFile = .ok ())
    (hkeysa : ∀ key, (a.layer.values.lookup key).isSome → key = expertsField.key)
    (hkeysb : ∀ key, (b.layer.values.lookup key).isSome → key = expertsField.key) :
    ∃ out, resolve isFile [a, b] = .ok out ∧ (out.values.lookup expertsField.key).map ResolvedValue.value =
      (b.layer.values.lookup expertsField.key).or ((a.layer.values.lookup expertsField.key).or
        ((ResolvedConfig.builtIn.values.lookup expertsField.key).map ResolvedValue.value)) := by
  have hbuiltIn : (ResolvedConfig.builtIn.values.lookup expertsField.key).isSome :=
    builtIn_keys.2 ⟨_, expertsField_mem, rfl⟩
  obtain ⟨mid, hmid⟩ := applyLayer_ok ResolvedConfig.builtIn a ha fun key hkey =>
    .inl (hkeysa key hkey ▸ hbuiltIn)
  have hsome : (mid.values.lookup expertsField.key).isSome := by
    rw [applyLayer_lookup hmid, Option.isSome_or, hbuiltIn, Bool.or_true]
  obtain ⟨out, hout⟩ := applyLayer_ok mid b hb fun key hkey => .inl (hkeysb key hkey ▸ hsome)
  refine ⟨out, ?_, ?_⟩
  · unfold resolve
    rw [List.foldlM_cons, hmid]
    exact (congrArg (Except.bind · _) hout).trans rfl
  · rw [applyLayer_value hout, applyLayer_value hmid]

/-- What a file gives back of null is nothing. -/
theorem noExperts_reloaded (h : Reloaded noExperts layer') (key : Key) : layer'.values.lookup key = none := by
  have hlookup : ∀ key, noExperts.values.lookup key = if key = expertsField.key then some .null else none := fun _ =>
    lookup_single
  have hcanonical : ∀ key, (noExperts.values.lookup key).isSome → canonicalConfigKey key = some key := by
    intro key hkey
    rw [hlookup] at hkey
    split_ifs at hkey with hk
    · rw [hk, canonicalConfigKey_key expertsField_mem]
    · cases hkey
  rw [h.exact hcanonical, hlookup]
  split_ifs
  · rfl
  · rfl

/-- A model's override that unsets the number of experts, saved and read back, lets the global number through. -/
theorem null_not_saved : (catalogOf noExperts).validate (fun _ => false) = .ok () ∧
    ∃ root catalog' model' out out', writeCatalogToml (fun _ => false) (catalogOf noExperts) = .ok root ∧
      loadCatalogToml (fun _ => false) root = .ok catalog' ∧ catalog'.models.lookup ['m'] = some model' ∧
      resolve (fun _ => false) [⟨.globalUser [], fourExperts⟩, ⟨.modelUser ['m'] [], noExperts⟩] = .ok out ∧
      resolve (fun _ => false) [⟨.globalUser [], fourExperts⟩, ⟨.modelUser ['m'] [], model'.overrides⟩] = .ok out' ∧
      (out.values.lookup expertsField.key).map ResolvedValue.value = some .null ∧
      (out'.values.lookup expertsField.key).map ResolvedValue.value = some (.integer 4) := by
  have hkeys : ∀ (value : ConfigValue) key, ((collect [(expertsField.key, value)]).lookup key).isSome →
      key = expertsField.key := by
    intro value key hkey
    rw [lookup_single] at hkey
    split_ifs at hkey with hk
    · exact hk
    · cases hkey
  have hvalid : (catalogOf noExperts).validate (fun _ => false) = .ok () := catalogOf_valid rfl
  have hnull : noExperts.validate (fun _ => false) = .ok () := single_valid rfl
  obtain ⟨root, catalog', hwrite, hload, hsaved⟩ := catalog_saved hvalid (by
    rw [catalogOf, iter_single, List.forall_mem_singleton]
    exact single_unclashed _)
  have hmodel := hsaved.models ['m']
  rw [catalogOf, lookup_single, if_pos rfl] at hmodel
  obtain ⟨model', hmodel', hreloaded⟩ : ∃ model', catalog'.models.lookup ['m'] = some model' ∧
      SavedModel ⟨none, none, noExperts⟩ model' := by
    generalize catalog'.models.lookup ['m'] = found at hmodel
    cases hmodel with
    | some h => exact ⟨_, rfl, h⟩
  have hnone := noExperts_reloaded hreloaded.overrides
  obtain ⟨out, hout, hvalue⟩ := resolve_experts
    (a := ⟨.globalUser [], fourExperts⟩) (b := ⟨.modelUser ['m'] [], noExperts⟩)
    (single_valid rfl) hnull (hkeys _) (hkeys _)
  obtain ⟨out', hout', hvalue'⟩ := resolve_experts
    (a := ⟨.globalUser [], fourExperts⟩) (b := ⟨.modelUser ['m'] [], model'.overrides⟩)
    (single_valid rfl) (hreloaded.overrides.validate hnull) (hkeys _) (fun key hkey => by
      change (model'.overrides.values.lookup key).isSome at hkey
      rw [hnone] at hkey
      cases hkey)
  refine ⟨hvalid, root, catalog', model', out, out', hwrite, hload, hmodel', hout, hout', ?_, ?_⟩
  · rw [hvalue, noExperts, lookup_single, if_pos rfl]
    rfl
  · rw [hvalue', hnone, fourExperts, lookup_single, if_pos rfl]
    rfl

end Null
end Hipscope.Config

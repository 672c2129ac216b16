import Hipscope.Config.Saved

/-! A stack of layers resolves alike over a layer and over what a file gives back of it. -/
namespace Hipscope.Config

variable {isFile : List Char → Bool} {layer layer' : ConfigLayer} {out out' : ResolvedConfig} {named : NamedLayer}
  {source : ConfigSource} {key : Key}

theorem applyLayer_ok_iff : applyLayer isFile out named = .ok out' ↔ named.layer.validate isFile = .ok () ∧
    named.layer.values.iter.foldlM (ResolvedConfig.apply named.source) out = .ok out' := by
  unfold applyLayer
  cases named.layer.validate isFile with
  | error e => simp [bind, Except.bind]
  | ok u => simp [bind, Except.bind]

/-- What a layer does to what is resolved: its values cover those below. -/
theorem applyLayer_lookup (h : applyLayer isFile out named = .ok out') (key : Key) : out'.values.lookup key =
    ((named.layer.values.lookup key).map (ResolvedConfig.cover named.source (out.values.lookup key))).or
      (out.values.lookup key) := by
  obtain ⟨-, hfold⟩ := applyLayer_ok_iff.1 h
  obtain ⟨out'', hfold', hlookup⟩ := ResolvedConfig.foldlM_apply_ok named.source out
    named.layer.values.iter_nodup (ResolvedConfig.foldlM_apply_needs hfold)
  obtain rfl := Except.ok.inj (hfold.symm.trans hfold')
  rw [hlookup, BTreeMap.lookup_iter]

/-- A layer goes in where its keys are there or developer keys. -/
theorem applyLayer_ok (out : ResolvedConfig) (named : NamedLayer)
    (hvalid : named.layer.validate isFile = .ok ())
    (h : ∀ key, (named.layer.values.lookup key).isSome → (out.values.lookup key).isSome ∨ isDeveloperKey key = true) :
    ∃ out', applyLayer isFile out named = .ok out' := by
  obtain ⟨out', hfold, -⟩ := ResolvedConfig.foldlM_apply_ok named.source out
    named.layer.values.iter_nodup (fun m hm => h m.1 (by rw [BTreeMap.mem_iter.1 hm]; rfl))
  exact ⟨out', applyLayer_ok_iff.2 ⟨hvalid, hfold⟩⟩

theorem applyLayer_needs (h : applyLayer isFile out named = .ok out')
    (hkey : (named.layer.values.lookup key).isSome) : (out.values.lookup key).isSome ∨ isDeveloperKey key = true := by
  obtain ⟨v, hv⟩ := Option.isSome_iff_exists.1 hkey
  exact ResolvedConfig.foldlM_apply_needs (applyLayer_ok_iff.1 h).2 (key, v) (BTreeMap.mem_iter.2 hv)

/-- A layer adds no key of a field. -/
theorem applyLayer_keys (h : applyLayer isFile out named = .ok out') (hdev : isDeveloperKey key = false) :
    (out'.values.lookup key).isSome = (out.values.lookup key).isSome := by
  rw [applyLayer_lookup h, Option.isSome_or, Option.isSome_map]
  cases hkey : (named.layer.values.lookup key).isSome with
  | false => rw [Bool.false_or]
  | true =>
    have hsome := (applyLayer_needs h hkey).resolve_right (by simp [hdev])
    rw [hsome, Bool.true_or]

section Canonical

/-- Every key that has a value is its own canonical key. -/
def Canonical {V : Type} (values : BTreeMap V) : Prop :=
  ∀ key, (values.lookup key).isSome → canonicalConfigKey key = some key

/-- Every field has a built-in value, and nothing else has. -/
theorem builtIn_keys : (ResolvedConfig.builtIn.values.lookup key).isSome ↔ ∃ f ∈ schemaFields, f.key = key := by
  have hfields : ∀ (fields : List ConfigField) (values : BTreeMap ResolvedValue),
      ((fields.foldl (fun values f => values.insert f.key ⟨f.default, .builtIn, []⟩) values).lookup key).isSome ↔
        (∃ f ∈ fields, f.key = key) ∨ (values.lookup key).isSome := by
    intro fields
    induction fields with
    | nil => simp
    | cons f fields ih =>
      intro values
      rw [List.foldl_cons, ih]
      by_cases hk : key = f.key
      · rw [hk, AList.lookup_insert]
        simp
      · rw [AList.lookup_insert_ne hk]
        simp [Ne.symm hk]
  unfold ResolvedConfig.builtIn
  rw [hfields]
  simp

/-- A default says where it is from. -/
theorem builtIn_source {v : ResolvedValue} (h : ResolvedConfig.builtIn.values.lookup key = some v) :
    v.source = .builtIn := by
  have hfields : ∀ (fields : List ConfigField) (values : BTreeMap ResolvedValue),
      (∀ v, values.lookup key = some v → v.source = .builtIn) → ∀ v,
        (fields.foldl (fun values f => values.insert f.key ⟨f.default, .builtIn, []⟩) values).lookup key = some v →
          v.source = .builtIn := by
    intro fields
    induction fields with
    | nil => exact fun _ h => h
    | cons f fields ih =>
      intro values h
      refine ih _ fun v hv => ?_
      by_cases hk : key = f.key
      · rw [hk, AList.lookup_insert] at hv
        rw [← Option.some.inj hv]
      · rw [AList.lookup_insert_ne hk] at hv
        exact h v hv
  exact hfields schemaFields ∅ (fun v hv => by cases hv) v h

theorem builtIn_canonical : Canonical ResolvedConfig.builtIn.values := by
  intro key hkey
  obtain ⟨f, hf, rfl⟩ := builtIn_keys.1 hkey
  exact canonicalConfigKey_key hf

/-- A layer that goes in over canonical keys has canonical keys. -/
theorem applyLayer_canonical (h : applyLayer isFile out named = .ok out') (hout : Canonical out.values) :
    Canonical named.layer.values ∧ Canonical out'.values := by
  have hlayer : Canonical named.layer.values := by
    intro key hkey
    rcases applyLayer_needs h hkey with hsome | hdev
    · exact hout key hsome
    · exact canonicalConfigKey_developer hdev
  refine ⟨hlayer, fun key hkey => ?_⟩
  rw [applyLayer_lookup h, Option.isSome_or, Option.isSome_map, Bool.or_eq_true] at hkey
  exact hkey.elim (hlayer key) (hout key)

theorem foldlM_applyLayer_canonical {layers : List NamedLayer} (h : layers.foldlM (applyLayer isFile) out = .ok out')
    (hout : Canonical out.values) : Canonical out'.values := by
  induction layers generalizing out with
  | nil =>
    obtain rfl := Except.ok.inj h
    exact hout
  | cons named layers ih =>
    rw [List.foldlM_cons] at h
    cases hnamed : applyLayer isFile out named with
    | error e =>
      rw [hnamed] at h
      cases h
    | ok mid =>
      rw [hnamed] at h
      exact ih h (applyLayer_canonical hnamed hout).2

/-- A value that is valid is valid under the canonical key. -/
theorem validateEntry_canonical {v : ConfigValue} {canonical : Key} (h : validateEntry isFile (key, v) = .ok ())
    (hcanonical : canonicalConfigKey key = some canonical) : validateEntry isFile (canonical, v) = .ok () := by
  rcases canonicalConfigKey_cases hcanonical with ⟨f, hf, hfield, rfl⟩ | ⟨-, rfl⟩
  · unfold validateEntry at h ⊢
    rw [hfield] at h
    rw [field_key hf]
    exact h
  · exact h

theorem Reloaded.validate (hreloaded : Reloaded layer layer') (h : layer.validate isFile = .ok ()) :
    layer'.validate isFile = .ok () := by
  rw [validate_iff] at h ⊢
  rintro ⟨key, v⟩ hm
  obtain ⟨key', hkey', hcanonical⟩ := hreloaded.source key v (BTreeMap.mem_iter.1 hm)
  exact validateEntry_canonical (h (key', v) (BTreeMap.mem_iter.2 hkey')) hcanonical

end Canonical

/-- The same values but under some keys, and the same keys of fields. -/
structure Alike (off : Key → Prop) (out out' : ResolvedConfig) : Prop where
  values : ∀ key, ¬ off key → out'.values.lookup key = out.values.lookup key
  keys : ∀ key, isDeveloperKey key = false → ((out'.values.lookup key).isSome ↔ (out.values.lookup key).isSome)

section Stack
variable {off : Key → Prop} {a b a' : ResolvedConfig}

/-- The same layer keeps what is alike. -/
theorem Alike.applyLayer (h : Alike off a b) (ha : applyLayer isFile a named = .ok a') :
    ∃ b', applyLayer isFile b named = .ok b' ∧ Alike off a' b' := by
  obtain ⟨b', hb⟩ := applyLayer_ok b _ (applyLayer_ok_iff.1 ha).1 fun key hkey => by
    cases hdev : isDeveloperKey key with
    | true => exact .inr rfl
    | false => exact .inl ((h.keys key hdev).2 ((applyLayer_needs ha hkey).resolve_right (by simp [hdev])))
  refine ⟨b', hb, fun key hoff => ?_, fun key hdev => ?_⟩
  · rw [applyLayer_lookup ha, applyLayer_lookup hb, h.values key hoff]
  · rw [applyLayer_keys ha hdev, applyLayer_keys hb hdev]
    exact h.keys key hdev

theorem Alike.foldlM {layers : List NamedLayer} (h : Alike off a b)
    (ha : layers.foldlM (Config.applyLayer isFile) a = .ok a') :
    ∃ b', layers.foldlM (Config.applyLayer isFile) b = .ok b' ∧ Alike off a' b' := by
  induction layers generalizing a b with
  | nil =>
    obtain rfl := Except.ok.inj ha
    exact ⟨b, rfl, h⟩
  | cons named layers ih =>
    rw [List.foldlM_cons] at ha
    cases hnamed : Config.applyLayer isFile a named with
    | error e =>
      rw [hnamed] at ha
      cases ha
    | ok mid =>
      rw [hnamed] at ha
      obtain ⟨mid', hmid, halike⟩ := h.applyLayer hnamed
      obtain ⟨b', hb, halike'⟩ := ih halike ha
      refine ⟨b', ?_, halike'⟩
      rw [List.foldlM_cons, hmid]
      exact hb

/-- What a file gives back of a layer goes in where the layer does, and leaves the same but under keys set to null. -/
theorem Reloaded.applyLayer (hreloaded : Reloaded layer layer') (hout : Canonical out.values)
    (h : applyLayer isFile out ⟨source, layer⟩ = .ok a) : ∃ b, Config.applyLayer isFile out ⟨source, layer'⟩ = .ok b ∧
      Alike (fun key => layer.values.lookup key = some .null) a b := by
  have hlookup := hreloaded.exact (applyLayer_canonical h hout).1
  obtain ⟨b, hb⟩ := applyLayer_ok out ⟨source, layer'⟩
    (hreloaded.validate (applyLayer_ok_iff.1 h).1) fun key hkey => by
      refine (applyLayer_needs h ?_ : (out.values.lookup key).isSome ∨ _)
      change (layer'.values.lookup key).isSome at hkey
      rw [hlookup] at hkey
      exact Option.isSome_of_isSome_filter _ _ hkey
  refine ⟨b, hb, fun key hnull => ?_, fun key hdev => ?_⟩
  · rw [applyLayer_lookup h, applyLayer_lookup hb]
    have hkeep : layer'.values.lookup key = layer.values.lookup key := by
      rw [hlookup]
      cases hv : layer.values.lookup key with
      | none => rfl
      | some v =>
        have hplace : HasToml v := hasToml_iff.2 fun heq => hnull (by rw [hv, heq])
        exact Option.filter_some_pos hplace
    change ((layer'.values.lookup key).map _).or _ = _
    rw [hkeep]
  · rw [applyLayer_keys h hdev, applyLayer_keys hb hdev]

end Stack
end Hipscope.Config

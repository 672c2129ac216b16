import Hipscope.Config.Flat
import Hipscope.Lists.Traverse

/-! A layer written to a table and read back holds what it held, but for null and under canonical keys. -/
namespace Hipscope.Config
open Nested

/-- A file has a place for the value. -/
def HasToml (v : ConfigValue) : Prop := v.intoToml.isSome

theorem hasToml_iff {v : ConfigValue} : HasToml v ↔ v ≠ .null := by
  unfold HasToml
  cases v <;> simp [ConfigValue.intoToml]

theorem fromToml_intoToml {v : ConfigValue} {scalar : TomlScalar} (h : v.intoToml = some scalar) :
    ConfigValue.fromToml scalar = some v := by
  cases v with
  | null => cases h
  | bool b | integer n | float x | string s =>
    obtain rfl := Option.some.inj h
    rfl

section Paths
variable {key pre : Key} {path : List Key}

/-- Names joined under a prefix. -/
theorem foldl_dottedKey (hpre : pre ≠ []) : path.foldl dottedKey pre = joinDots (pre :: path) := by
  induction path generalizing pre with
  | nil =>
    rw [joinDots, List.intercalate_singleton]
    rfl
  | cons name path ih =>
    have hempty : pre.isEmpty = false := List.isEmpty_eq_false_iff.2 hpre
    rw [List.foldl_cons, dottedKey, hempty, if_neg Bool.false_ne_true, ih (by simp)]
    unfold joinDots
    rw [List.intercalate_cons_of_ne_nil (List.cons_ne_nil name path)]
    cases path with
    | nil =>
      rw [List.intercalate_singleton, List.intercalate_singleton, List.append_assoc]
      rfl
    | cons next path =>
      rw [List.intercalate_cons_of_ne_nil (List.cons_ne_nil _ _), List.intercalate_cons_of_ne_nil (List.cons_ne_nil _ _)]
      simp

/-- A known key is what its path joins to. -/
theorem Known.foldl_split (h : Known key) : (key.splitOn '.').foldl dottedKey [] = key := by
  cases hpath : key.splitOn '.' with
  | nil => exact absurd hpath (List.splitOn_ne_nil _ _)
  | cons name path =>
    have hname := (h.head (by rw [hpath]; rfl)).1
    rw [List.foldl_cons, dottedKey, List.isEmpty_nil, if_pos rfl, foldl_dottedKey hname, ← hpath, joinDots_split]

end Paths

section Written
variable {entries : List (Key × ConfigValue)} {init : TomlTable}

/-- The entries that a file has a place for. -/
def saved (entries : List (Key × ConfigValue)) : List (Key × ConfigValue) :=
  entries.filter fun m => m.2.intoToml.isSome

/-- The leaf of an entry. -/
def entryLeaf (m : Key × ConfigValue) : Option (List Key × TomlScalar) :=
  m.2.intoToml.map fun scalar => (m.1.splitOn '.', scalar)

def writeLeaf (table : TomlTable) (m : List Key × TomlScalar) : Except ConfigError TomlTable :=
  match insertPath m.1 table m.2 with
  | .ok table => .ok table
  | .error blocked => .error (.invalidValue (joinDots blocked) (.alreadyScalar (blocked.headD [])))

theorem foldlM_writeEntry (init : TomlTable) :
    entries.foldlM writeEntry init = (entries.filterMap entryLeaf).foldlM writeLeaf init := by
  rw [List.foldlM_filterMap]
  congr 1
  funext table m
  unfold writeEntry entryLeaf
  cases m.2.intoToml <;> rfl

theorem mem_entryLeaf {leaf : List Key × TomlScalar} (h : leaf ∈ entries.filterMap entryLeaf) :
    ∃ m ∈ entries, HasToml m.2 ∧ m.2.intoToml = some leaf.2 ∧ leaf.1 = m.1.splitOn '.' := by
  obtain ⟨m, hm, hleaf⟩ := List.mem_filterMap.1 h
  obtain ⟨scalar, hscalar, rfl⟩ := Option.map_eq_some_iff.1 hleaf
  exact ⟨m, hm, by rw [HasToml, hscalar]; rfl, hscalar, rfl⟩

/-- No value stands under the legacy key of the speculation mode beside values in the table of that name. -/
def Unclashed (entries : List (Key × ConfigValue)) : Prop :=
  ∀ m ∈ entries, ∀ n ∈ entries, HasToml m.2 → HasToml n.2 → ¬ (m.1 = speculationKey ∧ m.1 ∈ dotted n.1)

theorem entryLeaf_apart (hknown : ∀ m ∈ entries, Known m.1) (hnodup : (entries.map Prod.fst).Nodup)
    (hclash : Unclashed entries) : (entries.filterMap entryLeaf).Pairwise fun m n => Apart m.1 n.1 := by
  rw [List.pairwise_filterMap]
  rw [List.Nodup, List.pairwise_map] at hnodup
  refine hnodup.imp_of_mem fun {m n} hm hn hne a ha b hb => ?_
  obtain ⟨x, hx, rfl⟩ := Option.map_eq_some_iff.1 ha
  obtain ⟨y, hy, rfl⟩ := Option.map_eq_some_iff.1 hb
  have hmx : HasToml m.2 := by rw [HasToml, hx]; rfl
  have hny : HasToml n.2 := by rw [HasToml, hy]; rfl
  exact (hknown m hm).apart (hknown n hn) hne (hclash m hm n hn hmx hny) (hclash n hn m hm hny hmx)

theorem insertPath_of_writeLeaf (t : TomlTable) (m : List Key × TomlScalar) (t' : TomlTable)
    (h : writeLeaf t m = .ok t') : insertPath m.1 t m.2 = .ok t' := by
  unfold writeLeaf at h
  cases hinsert : insertPath m.1 t m.2 with
  | error e =>
    rw [hinsert] at h
    cases h
  | ok t'' =>
    rw [hinsert] at h
    rw [Except.ok.inj h]

private theorem lt_append {key rest : Key} (h : rest ≠ []) : key < key ++ rest := by
  induction key with
  | nil =>
    obtain ⟨c, rest, rfl⟩ := List.exists_cons_of_ne_nil h
    exact List.nil_lt_cons c rest
  | cons c key ih => exact List.cons_lt_cons_self.2 ih

theorem split_speculationKey : speculationKey.splitOn '.' = [speculationKey] := by decide

/-- The path of a key that leads into the table of that name. -/
theorem split_below {key : Key} (h : speculationKey ∈ dotted key) :
    ∃ next rest, key.splitOn '.' = speculationKey :: next :: rest := by
  obtain ⟨below, rfl⟩ := mem_dotted.1 h
  have hplain : ∀ c ∈ speculationKey, (c == '.') = false := by decide
  have hsplit : (speculationKey ++ ['.'] ++ below).splitOn '.' = speculationKey :: below.splitOn '.' := by
    rw [List.append_assoc, List.singleton_append]
    exact List.splitOnP_append_cons_of_forall_mem hplain '.' rfl below
  obtain ⟨next, rest, hrest⟩ := List.exists_cons_of_ne_nil (List.splitOn_ne_nil '.' below)
  exact ⟨next, rest, by rw [hsplit, hrest]⟩

theorem writeEntry_speculation (t : TomlTable) {m : Key × ConfigValue} {v : TomlScalar} (hkey : m.1 = speculationKey)
    (hv : m.2.intoToml = some v) : writeEntry t m = .ok (put t speculationKey (.leaf v)) := by
  unfold writeEntry insertTomlPath
  simp only [hv, hkey, split_speculationKey, insertPath]

/-- Entries that are written in the order of their keys have no clash: the legacy key comes before the table of
that name, and its leaf bars it. -/
theorem unclashed_of_written (hsorted : entries.Pairwise fun m n => m.1 < n.1) {table : TomlTable}
    (h : entries.foldlM writeEntry init = .ok table) : Unclashed entries := by
  rintro m hm n hn hplace hplace' ⟨hkey, hbelow⟩
  obtain ⟨before, after, rfl⟩ := List.append_of_mem hm
  rw [hkey] at hbelow
  obtain ⟨next, rest, hpath⟩ := split_below hbelow
  -- a key is below those that lead on from it
  have hlt : m.1 < n.1 := by
    obtain ⟨suffix, hn⟩ := mem_dotted.1 hbelow
    rw [hkey, ← hn, List.append_assoc]
    exact lt_append (List.cons_ne_nil _ _)
  have hafter : n ∈ after := by
    rcases List.mem_append.1 hn with hn | hn
    · exact absurd ((List.pairwise_append.1 hsorted).2.2 n hn m List.mem_cons_self) (lt_asymm hlt)
    · rcases List.mem_cons.1 hn with rfl | hn
      · exact absurd hlt (lt_irrefl _)
      · exact hn
  rw [List.foldlM_append] at h
  obtain ⟨first, -, h⟩ := bind_ok h
  rw [List.foldlM_cons] at h
  obtain ⟨second, hsecond, h⟩ := bind_ok h
  obtain ⟨v, hv⟩ := Option.isSome_iff_exists.1 hplace
  obtain ⟨w, hw⟩ := Option.isSome_iff_exists.1 hplace'
  have hleaf := lookup_put_self (t := first) (k := speculationKey) (.leaf v)
  rw [writeEntry_speculation first hkey hv] at hsecond
  rw [Except.ok.inj hsecond] at hleaf
  rw [foldlM_writeEntry] at h
  have hitem : (n.1.splitOn '.', w) ∈ after.filterMap entryLeaf :=
    List.mem_filterMap.2 ⟨n, hafter, by rw [entryLeaf, hw]; rfl⟩
  exact insertAll_leaf insertPath_of_writeLeaf hleaf h _ hitem next rest hpath

/-- Entries under known keys are written, beside what a table holds for no entry. -/
theorem writeEntries_ok (init : TomlTable) (hknown : ∀ m ∈ entries, Known m.1) (hnodup : (entries.map Prod.fst).Nodup)
    (hclash : Unclashed entries) (hinit : ∀ m ∈ leaves init, m.1 = [versionKey]) :
    ∃ table, entries.foldlM writeEntry init = .ok table ∧
      (leaves table).Perm (entries.filterMap entryLeaf ++ leaves init) := by
  rw [foldlM_writeEntry]
  have hwrite : ∀ (t : TomlTable) m t', insertPath m.1 t m.2 = .ok t' → writeLeaf t m = .ok t' := by
    intro t m t' h
    rw [writeLeaf, h]
  refine insertAll_apart hwrite (fun leaf hleaf => ?_) (entryLeaf_apart hknown hnodup hclash) fun v hv leaf hleaf => ?_
  · obtain ⟨m, -, -, -, hpath⟩ := mem_entryLeaf hleaf
    rw [hpath]
    exact List.splitOn_ne_nil _ _
  · obtain ⟨m, hm, -, -, hpath⟩ := mem_entryLeaf hleaf
    rw [hinit v hv, hpath]
    have hhead := fun s hs => ((hknown m hm).head (s := s) hs).2
    refine ⟨fun h => ?_, fun h => ?_⟩
    · obtain ⟨rest, hrest⟩ := h
      exact hhead versionKey (by rw [← hrest]; rfl) rfl
    · obtain ⟨rest, hrest⟩ := h
      cases hsplit : m.1.splitOn '.' with
      | nil => exact List.splitOn_ne_nil _ _ hsplit
      | cons name names =>
        rw [hsplit] at hrest
        exact hhead name (by rw [hsplit]; rfl) (List.cons.inj hrest).1

/-- The version stays where it stands. -/
theorem writeEntries_lookup (hknown : ∀ m ∈ entries, Known m.1) {table : TomlTable}
    (h : entries.foldlM writeEntry init = .ok table) : table.lookup versionKey = init.lookup versionKey := by
  rw [foldlM_writeEntry] at h
  have hbeq : (List.instBEq : BEq Key) = instBEqOfDecidableEq := lawful_beq_subsingleton _ _
  rw [hbeq]
  refine insertAll_lookup insertPath_of_writeLeaf (fun leaf hleaf hhead => ?_) h
  obtain ⟨m, hm, -, -, hpath⟩ := mem_entryLeaf hleaf
  rw [hpath] at hhead
  exact ((hknown m hm).head hhead).2 rfl

theorem schemaVersionKey_eq : schemaVersionKey = versionKey := String.toList_ofList

/-- What is read back are the entries that a file has a place for. -/
theorem flat_written (hknown : ∀ m ∈ entries, Known m.1) : flat [] (entries.filterMap entryLeaf) = saved entries := by
  induction entries with
  | nil => rfl
  | cons m entries ih =>
    have hrest := ih fun n hn => hknown n (List.mem_cons_of_mem m hn)
    cases hscalar : m.2.intoToml with
    | none =>
      rw [List.filterMap_cons_none (by rw [entryLeaf, hscalar]; rfl), saved,
        List.filter_cons_of_neg (by rw [hscalar]; exact Bool.false_ne_true)]
      exact hrest
    | some scalar =>
      have hm := hknown m List.mem_cons_self
      have hversion : notVersion [] (m.1.splitOn '.', scalar) = true := by
        unfold notVersion
        rw [Bool.not_eq_true', Bool.and_eq_false_iff]
        right
        refine decide_eq_false fun hhead => ?_
        rw [schemaVersionKey_eq] at hhead
        exact (hm.head hhead).2 rfl
      have hentry : toEntry [] (m.1.splitOn '.', scalar) = some m := by
        unfold toEntry
        rw [fromToml_intoToml hscalar, hm.foldl_split]
        rfl
      rw [List.filterMap_cons_some (by rw [entryLeaf, hscalar]; rfl), flat, List.filter_cons_of_pos hversion,
        List.filterMap_cons_some hentry, saved, List.filter_cons_of_pos (by rw [hscalar]; rfl)]
      exact congrArg _ hrest

/-- A written table is flattened to the entries that it has a place for. -/
theorem flattenToml_written (hknown : ∀ m ∈ entries, Known m.1)
    (hinit : ∀ m ∈ leaves init, m = ([versionKey], .integer configSchemaVersion)) {table : TomlTable}
    (h : (leaves table).Perm (entries.filterMap entryLeaf ++ leaves init)) :
    ∃ flat, flattenToml [] table = .ok flat ∧ flat.Perm (saved entries) := by
  have hfirst : flat [] (leaves init) = [] := by
    unfold flat
    rw [List.filter_eq_nil_iff.2]
    · rfl
    · intro m hm
      rw [hinit m hm, ← schemaVersionKey_eq]
      simp [notVersion]
  have hperm : (flat [] (leaves table)).Perm (saved entries) := by
    refine (((h.filter _).filterMap _).trans (List.Perm.of_eq ?_) : (flat [] (leaves table)).Perm _)
    have happend : flat [] (entries.filterMap entryLeaf ++ leaves init) = saved entries := by
      rw [flat_append, flat_written hknown, hfirst, List.append_nil]
    exact happend
  refine ⟨_, flattenToml_eq [] table (.inr fun m hm => ?_) fun m hm => ?_, hperm⟩
  · rcases List.mem_append.1 (h.mem_iff.1 hm) with hleaf | hversion
    · obtain ⟨n, hn, -, -, hpath⟩ := mem_entryLeaf hleaf
      rw [hpath]
      exact fun hnil => ((hknown n hn).head hnil).1 rfl
    · rw [hinit m hversion]
      decide
  · rcases List.mem_append.1 (h.mem_iff.1 hm) with hleaf | hversion
    · obtain ⟨n, hn, -, hscalar, -⟩ := mem_entryLeaf hleaf
      rw [fromToml_intoToml hscalar]
      rfl
    · rw [hinit m hversion]
      rfl

end Written

section Reading
variable {isFile : List Char → Bool} {layer : ConfigLayer} {entries : List (Key × ConfigValue)} {key : Key}
  {m : Key × ConfigValue}

theorem validateEntry_known (h : validateEntry isFile m = .ok ()) : Known m.1 := by
  unfold validateEntry at h
  cases hfield : field m.1 with
  | some schema => exact .inl (by rw [hfield]; rfl)
  | none =>
    rw [hfield] at h
    by_cases hdev : isDeveloperKey m.1 = true
    · exact .inr hdev
    · change (if isDeveloperKey m.1 = true then _ else _) = _ at h
      rw [if_neg hdev] at h
      cases h

/-- A value that is valid is set under the canonical key. -/
theorem set_ok (h : validateEntry isFile m = .ok ()) (layer : ConfigLayer) :
    ∃ key, canonicalConfigKey m.1 = some key ∧ layer.set isFile m.1 m.2 = .ok ⟨layer.values.insert key m.2⟩ := by
  unfold canonicalConfigKey ConfigLayer.set
  unfold validateEntry at h
  cases hfield : field m.1 with
  | some schema =>
    rw [hfield] at h
    exact ⟨schema.key, rfl, congrArg (Except.bind · _) h⟩
  | none =>
    rw [hfield] at h
    change (if isDeveloperKey m.1 = true then _ else _) = _ at h
    by_cases hdev : isDeveloperKey m.1 = true
    · exact ⟨m.1, by rw [if_pos hdev]; rfl, if_pos hdev⟩
    · rw [if_neg hdev] at h
      cases h

/-- Valid values are all set, and nothing else is. -/
theorem foldlM_set_ok (h : ∀ m ∈ entries, validateEntry isFile m = .ok ()) (layer : ConfigLayer) :
    ∃ layer', entries.foldlM (fun layer m => layer.set isFile m.1 m.2) layer = .ok layer' ∧
      (∀ key v, layer'.values.lookup key = some v →
        layer.values.lookup key = some v ∨ ∃ m ∈ entries, canonicalConfigKey m.1 = some key ∧ m.2 = v) ∧
      ((entries.map Prod.fst).Nodup → (∀ m ∈ entries, canonicalConfigKey m.1 = some m.1) →
        ∀ key, layer'.values.lookup key = (entries.lookup key).or (layer.values.lookup key)) := by
  induction entries generalizing layer with
  | nil => exact ⟨layer, rfl, fun _ _ hv => .inl hv, fun _ _ _ => rfl⟩
  | cons m entries ih =>
    obtain ⟨at_, hcanonical, hset⟩ := set_ok (h m List.mem_cons_self) layer
    obtain ⟨layer', hall, hfrom, hexact⟩ :=
      ih (fun n hn => h n (List.mem_cons_of_mem m hn)) ⟨layer.values.insert at_ m.2⟩
    refine ⟨layer', ?_, fun key v hv => ?_, fun hnodup hown key => ?_⟩
    · rw [List.foldlM_cons, hset]
      exact hall
    · rcases hfrom key v hv with hold | ⟨n, hn, hkey, hvalue⟩
      · by_cases hk : key = at_
        · rw [hk, AList.lookup_insert] at hold
          exact .inr ⟨m, List.mem_cons_self, by rw [hk, hcanonical], Option.some.inj hold⟩
        · rw [AList.lookup_insert_ne hk] at hold
          exact .inl hold
      · exact .inr ⟨n, List.mem_cons_of_mem m hn, hkey, hvalue⟩
    · rw [List.map_cons, List.nodup_cons] at hnodup
      obtain rfl : m.1 = at_ := Option.some.inj ((hown m List.mem_cons_self).symm.trans hcanonical)
      rw [hexact hnodup.2 (fun n hn => hown n (List.mem_cons_of_mem m hn)), List.lookup_cons]
      by_cases hk : key = m.1
      · have hnone : entries.lookup key = none := by
          rw [Option.eq_none_iff_forall_ne_some]
          intro v hv
          rw [lookup_iff_mem hnodup.2, hk] at hv
          exact hnodup.1 (List.mem_map.2 ⟨_, hv, rfl⟩)
        rw [hnone, hk, AList.lookup_insert]
        simp
      · rw [AList.lookup_insert_ne hk, beq_eq_false_iff_ne.2 hk]

theorem validate_iff : layer.validate isFile = .ok () ↔ ∀ m ∈ layer.values.iter, validateEntry isFile m = .ok () :=
  forM_ok_iff _

/-- What a file gives back of a layer. -/
structure Reloaded (layer layer' : ConfigLayer) : Prop where
  /-- Every value is one of the layer's, under its canonical key. -/
  source : ∀ key v, layer'.values.lookup key = some v →
    ∃ key', layer.values.lookup key' = some v ∧ canonicalConfigKey key' = some key
  /-- A layer under canonical keys has all its values but null. -/
  exact : (∀ key, (layer.values.lookup key).isSome → canonicalConfigKey key = some key) →
    ∀ key, layer'.values.lookup key = (layer.values.lookup key).filter fun v => v.intoToml.isSome

/-- The values that a file has a place for, set again. -/
theorem setAll_reloaded (h : layer.validate isFile = .ok ()) {flat : List (Key × ConfigValue)}
    (hflat : flat.Perm (saved layer.values.iter)) :
    ∃ layer', setAll isFile (collect flat) = .ok layer' ∧ Reloaded layer layer' := by
  have hsub : (saved layer.values.iter).Sublist layer.values.iter := List.filter_sublist
  have hsaved : ((saved layer.values.iter).map Prod.fst).Nodup := layer.values.iter_nodup.sublist (hsub.map _)
  have hnodup : (flat.map Prod.fst).Nodup := (hflat.map Prod.fst).nodup_iff.2 hsaved
  have hmem : ∀ e ∈ (collect flat).iter, e ∈ layer.values.iter := fun e he =>
    hsub.subset (hflat.mem_iff.1 ((mem_iter_collect hnodup e).1 he))
  obtain ⟨layer', hset, hfrom, hexact⟩ :=
    foldlM_set_ok (fun e he => validate_iff.1 h e (hmem e he)) (⟨∅⟩ : ConfigLayer)
  refine ⟨layer', hset, fun key v hv => ?_, fun hown key => ?_⟩
  · rcases hfrom key v hv with hold | ⟨e, he, hkey, rfl⟩
    · cases hold
    · exact ⟨e.1, BTreeMap.mem_iter.1 (hmem e he), hkey⟩
  · have hkeys : ∀ e ∈ (collect flat).iter, canonicalConfigKey e.1 = some e.1 := by
      intro e he
      refine hown e.1 ?_
      rw [BTreeMap.mem_iter.1 (hmem e he)]
      rfl
    rw [hexact (collect flat).iter_nodup hkeys, BTreeMap.lookup_iter, lookup_collect hnodup]
    ext v
    have hsome : flat.lookup key = some v ↔ layer.values.lookup key = some v ∧ v.intoToml.isSome := by
      rw [lookup_iff_mem hnodup, hflat.mem_iff, saved, List.mem_filter, BTreeMap.mem_iter]
    simpa [Option.filter_eq_some_iff] using hsome

/-- A layer that is valid and has no clash is written and read back. -/
theorem layer_saved (h : layer.validate isFile = .ok ()) (hclash : Unclashed layer.values.iter) :
    ∃ table layer', writeLayerToml isFile layer = .ok table ∧ loadTomlLayer isFile table = .ok layer' ∧
      Reloaded layer layer' := by
  have hknown : ∀ m ∈ layer.values.iter, Known m.1 := fun m hm => validateEntry_known (validate_iff.1 h m hm)
  have hversion : leaves [(schemaVersionKey, Node.leaf (TomlScalar.integer configSchemaVersion))] =
      [([versionKey], .integer configSchemaVersion)] := by
    rw [leaves_cons, under_leaf, schemaVersionKey_eq, leaves, List.append_nil]
  obtain ⟨table, hwrite, hleaves⟩ := writeEntries_ok
    [(schemaVersionKey, .leaf (.integer configSchemaVersion))] hknown layer.values.iter_nodup hclash (by
      rw [hversion]
      simp)
  obtain ⟨flat, hflatten, hflat⟩ := flattenToml_written hknown (by
    rw [hversion]
    simp) hleaves
  obtain ⟨layer', hset, hreloaded⟩ := setAll_reloaded h hflat
  refine ⟨table, layer', ?_, ?_, hreloaded⟩
  · unfold writeLayerToml
    rw [h]
    exact hwrite
  · have hlookup := writeEntries_lookup hknown hwrite
    unfold loadTomlLayer
    rw [schemaVersionKey_eq, hlookup, schemaVersionKey_eq]
    have hread : (flattenToml [] table).bind (fun flat => setAll isFile (collect flat)) = .ok layer' := by
      rw [hflatten]
      exact hset
    refine (if_pos ?_).trans hread
    simp [asInteger]

end Reading
end Hipscope.Config

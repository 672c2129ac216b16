import Hipscope.Config.Files

/-! Configuration keys: the tables their dots lead into, and which keys keep apart. -/
namespace Hipscope.Config
open Nested

/-- The beginnings of a key that a dot follows. -/
def dotted : Key → List Key
  | [] => []
  | c :: key => (if c = '.' then [[]] else []) ++ (dotted key).map (c :: ·)

/-- The tables that canonical keys lead into. -/
def tableHeads : List Key :=
  [['a', 't', 't', 'e', 'n', 't', 'i', 'o', 'n'],
   ['d', 'i', 'a', 'g', 'n', 'o', 's', 't', 'i', 'c'],
   ['d', 'i', 'a', 'g', 'n', 'o', 's', 't', 'i', 'c', '.', 'c', 'o', 'm', 'p', 'i', 'l', 'e', 'r'],
   ['d', 'i', 'a', 'g', 'n', 'o', 's', 't', 'i', 'c', '.', 'k', 'e', 'r', 'n', 'e', 'l'],
   ['d', 'i', 'a', 'g', 'n', 'o', 's', 't', 'i', 'c', '.', 'p', 'f', 'l', 'a', 's', 'h'],
   ['d', 'i', 'a', 'g', 'n', 'o', 's', 't', 'i', 'c', '.', 'r', 'e', 'p', 'l', 'a', 'y'],
   ['e', 'x', 'p', 'e', 'r', 'i', 'm', 'e', 'n', 't', 'a', 'l'],
   ['e', 'x', 'p', 'e', 'r', 'i', 'm', 'e', 'n', 't', 'a', 'l', '.', 'g', 'r', 'a', 'p', 'h'],
   ['f', 'u', 's', 'i', 'o', 'n', 's'],
   ['g', 'e', 'n', 'e', 'r', 'a', 't', 'i', 'o', 'n'],
   ['h', 'a', 'r', 'd', 'w', 'a', 'r', 'e'],
   ['k', 'e', 'r', 'n', 'e', 'l'],
   ['m', 'e', 'm', 'o', 'r', 'y'],
   ['m', 'e', 'm', 'o', 'r', 'y', '.', 'c', 'a', 's', 'k'],
   ['m', 'e', 'm', 'o', 'r', 'y', '.', 'm', 'm', 'q'],
   ['m', 'o', 'd', 'e', 'l'],
   ['p', 'r', 'o', 'm', 'p', 't'],
   ['r', 'e', 'a', 's', 'o', 'n', 'i', 'n', 'g'],
   ['r', 'e', 'p', 'l', 'a', 'y'],
   ['s', 'e', 'r', 'v', 'e'],
   ['s', 'p', 'e', 'c', 'u', 'l', 'a', 't', 'i', 'o', 'n'],
   ['s', 'p', 'e', 'c', 'u', 'l', 'a', 't', 'i', 'o', 'n', '.', 'p', 'r', 'e', 'f', 'i', 'l', 'l']]

/-- The legacy key that is also the name of a table. -/
def speculationKey : Key := ['s', 'p', 'e', 'c', 'u', 'l', 'a', 't', 'i', 'o', 'n']

def developerKey : Key := ['d', 'e', 'v', 'e', 'l', 'o', 'p', 'e', 'r']

def versionKey : Key := ['s', 'c', 'h', 'e', 'm', 'a', '_', 'v', 'e', 'r', 's', 'i', 'o', 'n']

/-- A canonical key leads into tables and is none; a legacy key has no dot, and only one of them is a table. -/
structure WellKeyed (key legacyKey : Key) : Prop where
  tables : ∀ p ∈ dotted key, p ∈ tableHeads
  inTable : dotted key ≠ []
  noTable : key ∉ tableHeads
  flat : dotted legacyKey = []
  alone : legacyKey ∈ tableHeads → legacyKey = speculationKey
  named : legacyKey ≠ [] ∧ legacyKey ≠ versionKey ∧ legacyKey ≠ developerKey

def checkKeys (key legacyKey : Key) : Bool :=
  (dotted key).all (tableHeads.contains ·) && !(dotted key).isEmpty && !tableHeads.contains key &&
    (dotted legacyKey).isEmpty && (!tableHeads.contains legacyKey || legacyKey == speculationKey) &&
    (legacyKey != [] && (legacyKey != versionKey && legacyKey != developerKey))

theorem wellKeyed_of_check {key legacyKey : Key} (h : checkKeys key legacyKey = true) : WellKeyed key legacyKey := by
  unfold checkKeys at h
  simp only [Bool.and_eq_true, List.all_eq_true, List.contains_iff_mem, Bool.not_eq_true', List.isEmpty_eq_false_iff,
    List.isEmpty_iff, Bool.or_eq_true, beq_iff_eq, bne_iff_ne] at h
  obtain ⟨⟨⟨⟨⟨htables, hin⟩, hno⟩, hflat⟩, halone⟩, hnamed⟩ := h
  refine ⟨htables, hin, fun hmem => ?_, hflat, fun hmem => ?_, hnamed⟩
  · rw [List.contains_iff_mem.2 hmem] at hno
    cases hno
  · rw [List.contains_iff_mem.2 hmem] at halone
    exact halone.resolve_left (by decide)

theorem entry_wellKeyed {key legacyKey : List Char} (h : checkKeys key legacyKey = true) (scope : ConfigScope)
    (default : ConfigValue) (rule : ValueRule) :
    WellKeyed (entry (String.ofList key) (String.ofList legacyKey) scope default rule).key
      (entry (String.ofList key) (String.ofList legacyKey) scope default rule).legacyKey := by
  unfold entry
  rw [String.toList_ofList, String.toList_ofList]
  exact wellKeyed_of_check h

theorem schema_wellKeyed : ∀ f ∈ schemaFields, WellKeyed f.key f.legacyKey := by
  unfold schemaFields
  repeat refine List.forall_mem_cons.2 ⟨entry_wellKeyed (by decide +kernel) _ _ _, ?_⟩
  exact List.forall_mem_nil _

/-- A key as a number. -/
private def keyCode (key : Key) : ℕ := key.foldl (fun code c => code * 256 + c.toNat) 0

private theorem codes_cons {key legacyKey : List Char} {scope : ConfigScope} {default : ConfigValue} {rule : ValueRule}
    {fields : List ConfigField} {codes : List (ℕ × ℕ)}
    (h : fields.map (fun f => (keyCode f.key, keyCode f.legacyKey)) = codes) :
    (entry (String.ofList key) (String.ofList legacyKey) scope default rule :: fields).map
      (fun f => (keyCode f.key, keyCode f.legacyKey)) = (keyCode key, keyCode legacyKey) :: codes := by
  rw [List.map_cons, h, entry, String.toList_ofList, String.toList_ofList]

private def allApart : List ℕ → Bool
  | [] => true
  | n :: ns => ns.all (fun m => !Nat.beq n m) && allApart ns

private theorem allApart_nodup {ns : List ℕ} (h : allApart ns = true) : ns.Nodup := by
  induction ns with
  | nil => exact .nil
  | cons n ns ih =>
    rw [allApart, Bool.and_eq_true, List.all_eq_true] at h
    refine List.nodup_cons.2 ⟨fun hmem => ?_, ih h.2⟩
    have hapart := h.1 n hmem
    rw [Nat.beq_refl] at hapart
    cases hapart

private theorem schema_codes : ∃ codes, schemaFields.map (fun f => (keyCode f.key, keyCode f.legacyKey)) = codes ∧
    (codes.map Prod.fst).Nodup ∧ (codes.map Prod.snd).Nodup := by
  constructor
  constructor
  · unfold schemaFields
    repeat apply codes_cons
    exact List.map_nil
  · exact ⟨allApart_nodup (by decide +kernel), allApart_nodup (by decide +kernel)⟩

/-- A canonical key belongs to one field, and so does a legacy key. -/
theorem schema_unique {f g : ConfigField} (hf : f ∈ schemaFields) (hg : g ∈ schemaFields)
    (h : f.key = g.key ∨ f.legacyKey = g.legacyKey) : f = g := by
  obtain ⟨codes, hcodes, hkeys, hlegacy⟩ := schema_codes
  rw [← hcodes, List.map_map] at hkeys hlegacy
  rcases h with h | h
  · exact List.inj_on_of_nodup_map hkeys hf hg (congrArg keyCode h)
  · exact List.inj_on_of_nodup_map hlegacy hf hg (congrArg keyCode h)

section Dots
variable {a b key : Key}

theorem mem_dotted : a ∈ dotted b ↔ a ++ ['.'] <+: b := by
  induction b generalizing a with
  | nil =>
    simp [dotted]
  | cons c b ih =>
    rw [dotted, List.mem_append, List.mem_map]
    cases a with
    | nil =>
      rw [List.nil_append, List.cons_prefix_cons]
      by_cases hc : c = '.'
      · simp [hc]
      · simp [hc, Ne.symm hc]
    | cons d a =>
      rw [List.cons_append, List.cons_prefix_cons, ← ih]
      constructor
      · rintro (hhead | ⟨x, hx, hcons⟩)
        · split_ifs at hhead
          · simp at hhead
          · simp at hhead
        · obtain ⟨rfl, rfl⟩ := List.cons.inj hcons
          exact ⟨rfl, hx⟩
      · rintro ⟨rfl, ha⟩
        exact .inr ⟨a, ha, rfl⟩

private theorem joinDots_append {xs ys : List Key} (hx : xs ≠ []) (hy : ys ≠ []) :
    joinDots (xs ++ ys) = joinDots xs ++ '.' :: joinDots ys := by
  unfold joinDots
  induction xs with
  | nil => exact absurd rfl hx
  | cons x xs ih =>
    cases xs with
    | nil =>
      rw [List.singleton_append, List.intercalate_cons_of_ne_nil hy, List.intercalate_singleton, List.append_assoc]
      rfl
    | cons x' xs =>
      rw [List.cons_append, List.intercalate_cons_of_ne_nil (by simp), ih (List.cons_ne_nil _ _),
        List.intercalate_cons_of_ne_nil (List.cons_ne_nil _ _), List.append_assoc, List.append_assoc, List.append_assoc]

theorem joinDots_split (key : Key) : joinDots (key.splitOn '.') = key := List.intercalate_splitOn '.'

/-- A path runs into another where its key is the other key, or a table that the other leads into. -/
theorem eq_or_dotted (h : a.splitOn '.' <+: b.splitOn '.') : a = b ∨ a ∈ dotted b := by
  obtain ⟨rest, hrest⟩ := h
  cases rest with
  | nil =>
    rw [List.append_nil] at hrest
    left
    rw [← joinDots_split a, ← joinDots_split b, hrest]
  | cons y rest =>
    right
    rw [mem_dotted, ← joinDots_split b, ← hrest,
      joinDots_append (List.splitOn_ne_nil _ _) (List.cons_ne_nil _ _), joinDots_split]
    exact ⟨joinDots (y :: rest), by rw [List.append_assoc]; rfl⟩

/-- The first name of a path is its key, or a table that its key leads into. -/
theorem head_split {s : Key} (h : (key.splitOn '.').head? = some s) : s = key ∨ s ∈ dotted key := by
  obtain ⟨rest, hrest⟩ := List.head?_eq_some_iff.1 h
  have hkey : joinDots (s :: rest) = key := by rw [← hrest, joinDots_split]
  cases rest with
  | nil =>
    left
    rw [← hkey, joinDots, List.intercalate_singleton]
  | cons y rest =>
    right
    have hjoin : joinDots (s :: y :: rest) = joinDots [s] ++ '.' :: joinDots (y :: rest) :=
      joinDots_append (List.cons_ne_nil s []) (List.cons_ne_nil y rest)
    rw [mem_dotted, ← hkey, hjoin, joinDots, List.intercalate_singleton]
    exact ⟨joinDots (y :: rest), List.append_assoc _ _ _⟩

end Dots

section Known
variable {a b key : Key} {f : ConfigField}

theorem field_some (h : field key = some f) : f ∈ schemaFields ∧ (f.key = key ∨ f.legacyKey = key) := by
  have hfound := List.find?_some h
  rw [Bool.or_eq_true, decide_eq_true_eq, decide_eq_true_eq] at hfound
  exact ⟨List.mem_of_find?_eq_some h, hfound⟩

/-- A field is found under its canonical key. -/
theorem field_key (hf : f ∈ schemaFields) : field f.key = some f := by
  cases hfield : field f.key with
  | none =>
    have hnone := List.find?_eq_none.1 hfield f hf
    simp at hnone
  | some g =>
    obtain ⟨hg, hkey | hlegacy⟩ := field_some hfield
    · rw [schema_unique hg hf (.inl hkey)]
    · -- a legacy key has no dot
      have hflat := (schema_wellKeyed g hg).flat
      rw [hlegacy] at hflat
      exact absurd hflat (schema_wellKeyed f hf).inTable

private theorem developerPrefix_eq : developerPrefix = developerKey ++ ['.'] := String.toList_ofList

theorem developer_dotted (h : isDeveloperKey key = true) : developerKey ∈ dotted key := by
  rw [isDeveloperKey, Bool.and_eq_true, decide_eq_true_eq, developerPrefix_eq] at h
  exact mem_dotted.2 h.1

private theorem dotted_append (x y : Key) :
    dotted (x ++ y) = dotted x ++ (dotted y).map (x ++ ·) := by
  induction x with
  | nil => simp [dotted]
  | cons c x ih =>
    rw [List.cons_append, dotted, dotted, ih, List.map_append, List.map_map, List.append_assoc]
    rfl

private theorem dotted_undotted {suffix : Key} (h : ∀ c ∈ suffix, c ≠ '.') : dotted suffix = [] := by
  induction suffix with
  | nil => rfl
  | cons c suffix ih =>
    rw [dotted, if_neg (h c List.mem_cons_self), ih fun d hd => h d (List.mem_cons_of_mem c hd)]
    rfl

/-- A developer key has one dot. -/
theorem dotted_developer (h : isDeveloperKey key = true) : dotted key = [developerKey] := by
  rw [isDeveloperKey, Bool.and_eq_true, decide_eq_true_eq, developerPrefix_eq] at h
  obtain ⟨⟨suffix, rfl⟩, hsuffix⟩ := h
  rw [List.drop_left, validDeveloperSuffix, Bool.and_eq_true, List.all_eq_true] at hsuffix
  have hplain : ∀ c ∈ suffix, c ≠ '.' := by
    rintro c hc rfl
    exact absurd (hsuffix.2 '.' hc) (by decide)
  rw [dotted_append, dotted_undotted hplain]
  rfl

theorem developerKey_no_table : developerKey ∉ tableHeads := by decide

/-- No field has a developer key. -/
theorem field_developer (h : isDeveloperKey key = true) : field key = none := by
  cases hfield : field key with
  | none => rfl
  | some f =>
    obtain ⟨hf, rfl | rfl⟩ := field_some hfield
    · exact absurd ((schema_wellKeyed f hf).tables _ (developer_dotted h)) developerKey_no_table
    · have hdot := developer_dotted h
      rw [(schema_wellKeyed f hf).flat] at hdot
      exact absurd hdot List.not_mem_nil

/-- What a canonical key is. -/
theorem canonicalConfigKey_cases {canonical : Key} (h : canonicalConfigKey key = some canonical) :
    (∃ f ∈ schemaFields, field key = some f ∧ f.key = canonical) ∨ isDeveloperKey key = true ∧ canonical = key := by
  unfold canonicalConfigKey at h
  cases hfield : field key with
  | some f =>
    rw [hfield] at h
    exact .inl ⟨f, (field_some hfield).1, rfl, Option.some.inj h⟩
  | none =>
    rw [hfield, Option.map_none, Option.none_or] at h
    by_cases hdev : isDeveloperKey key = true
    · rw [if_pos hdev] at h
      exact .inr ⟨hdev, (Option.some.inj h).symm⟩
    · rw [if_neg hdev] at h
      cases h

theorem canonicalConfigKey_key (hf : f ∈ schemaFields) : canonicalConfigKey f.key = some f.key := by
  unfold canonicalConfigKey
  rw [field_key hf]
  rfl

theorem canonicalConfigKey_developer (h : isDeveloperKey key = true) : canonicalConfigKey key = some key := by
  unfold canonicalConfigKey
  rw [field_developer h, if_pos h]
  rfl

/-- A key that a layer may hold. -/
def Known (key : Key) : Prop := (field key).isSome ∨ isDeveloperKey key = true

/-- What a known key is: canonical, legacy or a developer key. -/
theorem Known.cases (h : Known key) :
    (∃ f ∈ schemaFields, f.key = key) ∨ (∃ f ∈ schemaFields, f.legacyKey = key) ∨ isDeveloperKey key = true := by
  rcases h with hfield | hdev
  · obtain ⟨f, hf⟩ := Option.isSome_iff_exists.1 hfield
    obtain ⟨hmem, hkey | hlegacy⟩ := field_some hf
    · exact .inl ⟨f, hmem, hkey⟩
    · exact .inr (.inl ⟨f, hmem, hlegacy⟩)
  · exact .inr (.inr hdev)

/-- A known key that another one leads into is the legacy key of the speculation mode. -/
theorem Known.table (ha : Known a) (hb : Known b) (h : a ∈ dotted b) : a = speculationKey := by
  rcases hb.cases with ⟨g, hg, rfl⟩ | ⟨g, hg, rfl⟩ | hdev
  · have htable := (schema_wellKeyed g hg).tables a h
    rcases ha.cases with ⟨f, hf, rfl⟩ | ⟨f, hf, rfl⟩ | hdev
    · exact absurd htable (schema_wellKeyed f hf).noTable
    · exact (schema_wellKeyed f hf).alone htable
    · have hprefix : developerKey ∈ dotted g.key := by
        rw [mem_dotted]
        exact (mem_dotted.1 (developer_dotted hdev)).trans ((List.prefix_append _ _).trans (mem_dotted.1 h))
      exact absurd ((schema_wellKeyed g hg).tables _ hprefix) developerKey_no_table
  · rw [(schema_wellKeyed g hg).flat] at h
    exact absurd h List.not_mem_nil
  · rw [dotted_developer hdev, List.mem_singleton] at h
    subst h
    rcases ha.cases with ⟨f, hf, hkey⟩ | ⟨f, hf, hlegacy⟩ | hdev'
    · exact absurd (hkey ▸ (schema_wellKeyed f hf).inTable) (by decide)
    · exact absurd hlegacy (schema_wellKeyed f hf).named.2.2
    · exact absurd (developer_dotted hdev') (by decide)

/-- The path of a known key begins with a name, and not with that of the version. -/
theorem Known.head (h : Known key) {s : Key} (hs : (key.splitOn '.').head? = some s) : s ≠ [] ∧ s ≠ versionKey := by
  rcases h.cases with ⟨f, hf, rfl⟩ | ⟨f, hf, rfl⟩ | hdev
  · have hwell := schema_wellKeyed f hf
    rcases head_split hs with rfl | htable
    · refine ⟨fun hnil => hwell.inTable ?_, fun hversion => hwell.inTable ?_⟩
      · rw [hnil]
        rfl
      · rw [hversion]
        decide
    · have hmem := hwell.tables s htable
      exact ⟨fun hnil => absurd (hnil ▸ hmem) (by decide), fun hversion => absurd (hversion ▸ hmem) (by decide)⟩
  · have hwell := schema_wellKeyed f hf
    rcases head_split hs with rfl | htable
    · exact ⟨hwell.named.1, hwell.named.2.1⟩
    · rw [hwell.flat] at htable
      exact absurd htable List.not_mem_nil
  · rcases head_split hs with rfl | htable
    · refine ⟨fun hnil => ?_, fun hversion => ?_⟩
      · have hdot := dotted_developer hdev
        rw [hnil] at hdot
        exact absurd hdot (by decide)
      · have hdot := dotted_developer hdev
        rw [hversion] at hdot
        exact absurd hdot (by decide)
    · rw [dotted_developer hdev, List.mem_singleton] at htable
      rw [htable]
      decide

/-- The paths of different known keys keep apart, but for those under the legacy key of the speculation mode. -/
theorem Known.apart (ha : Known a) (hb : Known b) (hne : a ≠ b) (hab : ¬ (a = speculationKey ∧ a ∈ dotted b))
    (hba : ¬ (b = speculationKey ∧ b ∈ dotted a)) : Apart (a.splitOn '.') (b.splitOn '.') := by
  refine ⟨fun h => ?_, fun h => ?_⟩
  · rcases eq_or_dotted h with heq | hdot
    · exact hne heq
    · exact hab ⟨ha.table hb hdot, hdot⟩
  · rcases eq_or_dotted h with heq | hdot
    · exact hne heq.symm
    · exact hba ⟨hb.table ha hdot, hdot⟩

end Known
end Hipscope.Config

/-! What reading a table back gives: its leaves under their dotted keys, set one after the other. -/
namespace Hipscope.Config
open Nested

section Flatten
variable {t : TomlTable} {v : TomlValue} {pre key : Key}

/-- A leaf's value under its dotted key. -/
def toEntry (pre : Key) (m : List Key × TomlScalar) : Option (Key × ConfigValue) :=
  (ConfigValue.fromToml m.2).map fun value => (m.1.foldl dottedKey pre, value)

/-- The leaf is not the version at the top. -/
def notVersion (pre : Key) (m : List Key × TomlScalar) : Bool := !(pre.isEmpty && m.1.head? = some schemaVersionKey)

/-- No name at the top is empty. -/
def Named (pre : Key) (leaves : List (List Key × TomlScalar)) : Prop := pre ≠ [] ∨ ∀ m ∈ leaves, m.1.head? ≠ some []

/-- The leaves below the version as entries. -/
def flat (pre : Key) (leaves : List (List Key × TomlScalar)) : List (Key × ConfigValue) :=
  (leaves.filter (notVersion pre)).filterMap (toEntry pre)

theorem flat_append (pre : Key) (x y : List (List Key × TomlScalar)) :
    flat pre (x ++ y) = flat pre x ++ flat pre y := by
  unfold flat
  rw [List.filter_append, List.filterMap_append]

private theorem flat_version (v : TomlValue) : flat [] (under schemaVersionKey v) = [] := by
  unfold flat
  have hnone : (under schemaVersionKey v).filter (notVersion []) = [] := by
    rw [List.filter_eq_nil_iff]
    intro m hm
    obtain ⟨rest, -, hpath⟩ := mem_under.1 hm
    unfold notVersion
    rw [hpath]
    simp
  rw [hnone]
  rfl

private theorem flat_under (hskip : ¬ (pre.isEmpty && key = schemaVersionKey) = true)
    (hdotted : dottedKey pre key ≠ []) :
    flat pre (under key v) = flat (dottedKey pre key) (nodeLeaves v) := by
  have hkeep : ∀ m ∈ under key v, notVersion pre m = true := by
    intro m hm
    obtain ⟨rest, -, hpath⟩ := mem_under.1 hm
    unfold notVersion
    rw [hpath, List.head?_cons]
    simpa [imp_iff_not_or] using hskip
  have hkeep' : ∀ m ∈ nodeLeaves v, notVersion (dottedKey pre key) m = true := by
    intro m _
    unfold notVersion
    simp [hdotted]
  unfold flat
  rw [List.filter_eq_self.2 hkeep, List.filter_eq_self.2 hkeep', under, List.filterMap_map]
  rfl

mutual

/-- A table whose leaves a layer can hold is flattened to them. -/
theorem flattenToml_eq (pre : Key) (t : TomlTable) (hnamed : Named pre (leaves t))
    (hheld : ∀ m ∈ leaves t, (ConfigValue.fromToml m.2).isSome) : flattenToml pre t = .ok (flat pre (leaves t)) := by
  cases t with
  | nil =>
    rw [flattenToml]
    rfl
  | cons m rest =>
    obtain ⟨key, v⟩ := m
    rw [leaves_cons] at hnamed hheld ⊢
    have hrest := flattenToml_eq pre rest (hnamed.imp_right fun h m hm => h m (List.mem_append_right _ hm))
      fun m hm => hheld m (List.mem_append_right _ hm)
    rw [flattenToml, hrest, flat_append]
    by_cases hskip : (pre.isEmpty && key = schemaVersionKey) = true
    · rw [if_pos hskip]
      obtain ⟨hpre, hkey⟩ := Bool.and_eq_true_iff.1 hskip
      rw [List.isEmpty_iff.1 hpre, of_decide_eq_true hkey, flat_version]
      rfl
    · rw [if_neg hskip]
      have hinside : ∀ m ∈ nodeLeaves v, (key :: m.1, m.2) ∈ under key v := fun m hm => mem_under.2 ⟨m.1, hm, rfl⟩
      by_cases hdotted : dottedKey pre key = []
      · -- an empty name holds no leaf
        have hpre : pre = [] := by
          by_contra hne
          rw [dottedKey, if_neg (by simpa using hne)] at hdotted
          exact absurd (List.append_eq_nil_iff.1 hdotted).2 (List.cons_ne_nil _ _)
        have hkey : key = [] := by simpa [dottedKey, hpre] using hdotted
        have hempty : nodeLeaves v = [] := by
          rw [List.eq_nil_iff_forall_not_mem]
          intro m hm
          refine hnamed.resolve_left (not_not.2 hpre) _ (List.mem_append_left _ (hinside m hm)) ?_
          rw [hkey]
          rfl
        have hnode := flattenNode_eq (dottedKey pre key) v (.inr (by simp [hempty])) (by simp [hempty])
        rw [hnode, hempty, under, hempty]
        rfl
      · have hnode := flattenNode_eq (dottedKey pre key) v (.inl hdotted)
          fun m hm => hheld (key :: m.1, m.2) (List.mem_append_left _ (hinside m hm))
        rw [hnode, flat_under hskip hdotted]
        rfl

theorem flattenNode_eq (dotted : Key) (v : TomlValue) (hnamed : Named dotted (nodeLeaves v))
    (hheld : ∀ m ∈ nodeLeaves v, (ConfigValue.fromToml m.2).isSome) :
    flattenNode dotted v = .ok (flat dotted (nodeLeaves v)) := by
  cases v with
  | leaf scalar =>
    rw [nodeLeaves] at hheld ⊢
    obtain ⟨value, hvalue⟩ := Option.isSome_iff_exists.1 (hheld _ (List.mem_singleton_self _))
    have hkeep : notVersion dotted ([], scalar) = true := by
      unfold notVersion
      simp
    rw [flattenNode, hvalue, flat, List.filter_cons_of_pos hkeep]
    simp [toEntry, hvalue]
  | table entries =>
    rw [nodeLeaves_table] at hnamed hheld ⊢
    rw [flattenNode]
    exact flattenToml_eq dotted entries hnamed hheld

end

end Flatten
end Hipscope.Config

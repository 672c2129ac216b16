import Hipscope.Config.Layer
import Hipscope.Nested.Table

/-! Layers and the model catalog as TOML documents, and back. A file holds what it parses to. -/
namespace Hipscope.Config
open Nested

/-- A TOML value that is no table; what a layer cannot hold, a date or an array, is not looked into. -/
inductive TomlScalar where
  | boolean (v : Bool)
  | integer (v : ℤ)
  | float (v : Float)
  | string (v : List Char)
  | other

abbrev TomlValue := Node Key TomlScalar

abbrev TomlTable := Table Key TomlScalar

def ConfigValue.intoToml : ConfigValue → Option TomlScalar
  | .bool v => some (.boolean v)
  | .integer v => some (.integer v)
  | .float v => some (.float v)
  | .string v => some (.string v)
  | .null => none

def ConfigValue.fromToml : TomlScalar → Option ConfigValue
  | .boolean v => some (.bool v)
  | .integer v => some (.integer v)
  | .float v => some (.float v)
  | .string v => some (.string v)
  | .other => none

def asStr : TomlValue → Option (List Char)
  | .leaf (.string v) => some v
  | _ => none

def asTable : TomlValue → Option TomlTable
  | .table entries => some entries
  | .leaf _ => none

def asInteger : TomlValue → Option ℤ
  | .leaf (.integer v) => some v
  | _ => none

def configSchemaVersion : ℤ := 1

def schemaVersionKey : Key := "schema_version".toList

def joinDots (path : List Key) : Key := ['.'].intercalate path

def insertTomlPath (table : TomlTable) (dotted : Key) (value : TomlScalar) : Except ConfigError TomlTable :=
  match insertPath (dotted.splitOn '.') table value with
  | .ok table => .ok table
  | .error blocked => .error (.invalidValue (joinDots blocked) (.alreadyScalar (blocked.headD [])))

/-- A key under the dotted prefix of its table. -/
def dottedKey (pre key : Key) : Key := if pre.isEmpty then key else pre ++ '.' :: key

mutual

/-- The values of a table under their dotted keys, without the version. -/
def flattenToml (pre : Key) : TomlTable → Except ConfigError (List (Key × ConfigValue))
  | [] => .ok []
  | (key, value) :: rest =>
    if pre.isEmpty && key = schemaVersionKey then flattenToml pre rest
    else do
      let here ← flattenNode (dottedKey pre key) value
      let others ← flattenToml pre rest
      .ok (here ++ others)

def flattenNode (dotted : Key) : TomlValue → Except ConfigError (List (Key × ConfigValue))
  | .table nested => flattenToml dotted nested
  | .leaf scalar =>
    match ConfigValue.fromToml scalar with
    | some value => .ok [(dotted, value)]
    | none => .error (.parse (.unsupportedValue dotted))

end

section Layers
variable (isFile : List Char → Bool)

def setAll (map : BTreeMap ConfigValue) : Except ConfigError ConfigLayer :=
  map.iter.foldlM (fun layer m => layer.set isFile m.1 m.2) ⟨∅⟩

def loadTomlLayer (table : TomlTable) : Except ConfigError ConfigLayer := do
  if (table.lookup schemaVersionKey).all fun version => asInteger version = some configSchemaVersion then
    let flat ← flattenToml [] table
    setAll isFile (collect flat)
  else .error (.parse .unsupportedVersion)

/-- One value of a layer into the table; null has no place there. -/
def writeEntry (table : TomlTable) (m : Key × ConfigValue) : Except ConfigError TomlTable :=
  match m.2.intoToml with
  | some value => insertTomlPath table m.1 value
  | none => .ok table

def writeLayerToml (layer : ConfigLayer) : Except ConfigError TomlTable := do
  layer.validate isFile
  layer.values.iter.foldlM writeEntry [(schemaVersionKey, .leaf (.integer configSchemaVersion))]

end Layers

structure LocalModelConfig where
  path : Option (List Char)
  registryTag : Option (List Char)
  overrides : ConfigLayer

/-- Names of local models, and the models by their identity. -/
structure ModelCatalog where
  aliases : BTreeMap (List Char)
  models : BTreeMap LocalModelConfig

/-- The components of a path: the root, and the names without empty ones and without `.` behind the first. -/
def components (path : List Char) : List (List Char) :=
  let parts := path.splitOn '/'
  let first := if path.head? = some '/' then [['/']] else (parts.take 1).filter (· = ['.'])
  first ++ parts.filter fun part => !part.isEmpty && part ≠ ['.']

def samePath (a b : List Char) : Bool := components a = components b

section Catalog
variable (isFile : List Char → Bool)

def validateModelKey (key : Key) : Except ConfigError Unit :=
  if isDeveloperKey key then .error (.invalidValue key .developerPerModel)
  else if (field key).any fun schema => schema.scope = .process || schema.scope = .diagnostic then
    .error (.invalidValue key .notPerModel)
  else .ok ()

def validateModelLayer (layer : ConfigLayer) : Except ConfigError Unit := do
  layer.validate isFile
  layer.values.iter.forM fun m => validateModelKey m.1

/-- A model's path among those before it; the paths seen with it. -/
def validateModelPath (paths : List (List Char)) (m : Key × LocalModelConfig) :
    Except ConfigError (List (List Char)) :=
  match m.2.path with
  | none => .ok paths
  | some path =>
    let key := "models.".toList ++ m.1 ++ ".path".toList
    if path.isEmpty then .error (.invalidValue key .emptyPath)
    else if paths.any (samePath path) then .error (.invalidValue key (.duplicatePath path))
    else .ok (paths ++ [path])

/-- A model's identity, its path and its overrides. -/
def validateModel (paths : List (List Char)) (m : Key × LocalModelConfig) : Except ConfigError (List (List Char)) :=
  if (Dsml.trim m.1).isEmpty then .error (.invalidValue "models".toList .emptyIdentity)
  else do
    let paths ← validateModelPath paths m
    validateModelLayer isFile m.2.overrides
    .ok paths

def validateAlias (models : BTreeMap LocalModelConfig) (m : Key × List Char) : Except ConfigError Unit :=
  let key := "aliases.".toList ++ m.1
  if (Dsml.trim m.1).isEmpty then .error (.invalidValue "aliases".toList .emptyAlias)
  else if m.1 = m.2 then .error (.invalidValue key .selfAlias)
  else if (models.lookup m.2).isNone then .error (.invalidValue key (.unknownModel m.2))
  else .ok ()

def ModelCatalog.validate (self : ModelCatalog) : Except ConfigError Unit := do
  let _ ← self.models.iter.foldlM (validateModel isFile) []
  self.aliases.iter.forM (validateAlias self.models)

def writeModel (m : Key × LocalModelConfig) : Except ConfigError (Key × TomlValue) := do
  let path := m.2.path.toList.map fun path => ("path".toList, .leaf (.string path))
  let tag := m.2.registryTag.toList.map fun tag => ("registry_tag".toList, .leaf (.string tag))
  let overrides ←
    if m.2.overrides.values.iter.isEmpty then .ok []
    else do
      let table ← m.2.overrides.values.iter.foldlM writeEntry []
      .ok [("overrides".toList, .table table)]
  .ok (m.1, .table (path ++ tag ++ overrides))

def writeCatalogToml (catalog : ModelCatalog) : Except ConfigError TomlTable := do
  catalog.validate isFile
  let aliases := catalog.aliases.iter.map fun m => (m.1, .leaf (.string m.2))
  let models ← catalog.models.iter.mapM writeModel
  .ok ((schemaVersionKey, .leaf (.integer configSchemaVersion)) ::
    (if aliases.isEmpty then [] else [("aliases".toList, .table aliases)]) ++
    (if models.isEmpty then [] else [("models".toList, .table models)]))

def readString (at_ : Key) (value : TomlValue) : Except ConfigError (List Char) :=
  match asStr value with
  | some v => .ok v
  | none => .error (.parse (.notString at_))

def readTable (at_ : Key) (value : TomlValue) : Except ConfigError TomlTable :=
  match asTable value with
  | some v => .ok v
  | none => .error (.parse (.notTable at_))

/-- An optional string of a record. -/
def readField (record : TomlTable) (id name : Key) : Except ConfigError (Option (List Char)) :=
  match record.lookup name with
  | none => .ok none
  | some value => do
    let v ← readString ("models.".toList ++ id ++ '.' :: name) value
    .ok (some v)

def readOverrides (record : TomlTable) (id : Key) : Except ConfigError ConfigLayer :=
  match record.lookup "overrides".toList with
  | none => .ok ⟨∅⟩
  | some value => do
    let table ← readTable ("models.".toList ++ id ++ ".overrides".toList) value
    let flat ← flattenToml [] table
    setAll isFile (collect flat)

def recordKeys : List Key := ["path".toList, "registry_tag".toList, "overrides".toList]

def readModel (m : Key × TomlValue) : Except ConfigError (Key × LocalModelConfig) := do
  let record ← readTable ("models.".toList ++ m.1) m.2
  let unknown := (record.map Prod.fst).filter fun key => !recordKeys.contains key
  if unknown.isEmpty then
    let path ← readField record m.1 "path".toList
    let registryTag ← readField record m.1 "registry_tag".toList
    let overrides ← readOverrides isFile record m.1
    validateModelLayer isFile overrides
    .ok (m.1, ⟨path, registryTag, overrides⟩)
  else .error (.parse (.unknownFields ("models.".toList ++ m.1) unknown))

def readAlias (m : Key × TomlValue) : Except ConfigError (Key × List Char) := do
  let target ← readString ("aliases.".toList ++ m.1) m.2
  .ok (m.1, target)

def rootKeys : List Key := [schemaVersionKey, "aliases".toList, "models".toList]

def loadCatalogToml (root : TomlTable) : Except ConfigError ModelCatalog := do
  let version := ((root.lookup schemaVersionKey).bind asInteger).getD configSchemaVersion
  if version = configSchemaVersion then
    let aliasesTable ← readTable "aliases".toList ((root.lookup "aliases".toList).getD (.table []))
    let aliases ← aliasesTable.mapM readAlias
    let modelsTable ← readTable "models".toList ((root.lookup "models".toList).getD (.table []))
    let models ← modelsTable.mapM (readModel isFile)
    let unknown := (root.map Prod.fst).filter fun key => !rootKeys.contains key
    if unknown.isEmpty then
      let catalog : ModelCatalog := ⟨collect aliases, collect models⟩
      catalog.validate isFile
      .ok catalog
    else .error (.parse (.unknownFields [] unknown))
  else .error (.parse .unsupportedVersion)

end Catalog
end Hipscope.Config

import MeChain.Lib.Fallible
import MeChain.Sdk

/-!
# The configuration commands

`app.toml [key] [value]` and `config.toml [key] [value]` show a configuration file or one of its keys,
or set a key: the value goes into Viper, the settings of Viper go into a fresh struct, and the file is
written from the struct.

* `Viper`              the layers a setting may come from;
* `runConfigCmd`       the command;
* `SetsOneKey`         what setting a key should do to the file;
* `setsOneKey_iff`     when it does;
* `initAppConfig`      the file as the node writes it, whose section `wasm` the struct does not have.
-/

namespace MeChain
open Fallible

/-! ## settings -/

/-- a value of a TOML file -/
inductive Value where
  | text (s : String)
  | int (n : ℤ)
  | bool (b : Bool)
  | array (vs : List Value)

/-- a file, by the dotted paths of its values in lower case -/
abbrev ConfigFile := String → Option Value

/-- a flag of the command: whether it was given, and its value or default -/
structure Flag where
  changed : Bool
  value : Value

structure Viper where
  override : String → Option Value
  flags : String → Option Flag
  env : String → Option Value
  config : String → Option Value

namespace Viper

/-- what stands in front of the configuration files: a flag that was given, or the environment -/
def stated (v : Viper) (k : String) : Option Value :=
  (((v.flags k).filter Flag.changed).map Flag.value).or (v.env k)

/-- the first layer that has the key; the default of a flag comes last -/
def find (v : Viper) (k : String) : Option Value :=
  (v.override k).or ((v.stated k).or ((v.config k).or ((v.flags k).map Flag.value)))

/-- `AllSettings`: the environment alone does not make a key known -/
def allSettings (v : Viper) (k : String) : Option Value :=
  if (v.override k).isSome || (v.flags k).isSome || (v.config k).isSome then v.find k else none

/-- what the server reads before a command runs: `app.toml` is merged over `config.toml` -/
def load (flags : String → Option Flag) (env : String → Option Value)
    (configToml appToml : ConfigFile) : Viper where
  override _ := none
  flags := flags
  env := env
  config k := (appToml k).or (configToml k)

end Viper

/-! ## structs -/

/-- A struct of configuration data: its fields by their keys, their zero values, and what a field
that holds a value takes on when it is given another. -/
structure ConfigStruct where
  keys : List String
  zero : String → Value
  fill : String → Value → Value → Value
  unmarshal : (String → Option Value) → (String → Value) → Res (String → Value)

/-- `Unmarshal` fills the fields for which there are settings and ignores other keys. -/
def ConfigStruct.Fills (c : ConfigStruct) : Prop :=
  ∀ settings fields fields', c.unmarshal settings fields = .ok fields' → ∀ k ∈ c.keys,
    fields' k = match settings k with
      | some v => c.fill k (fields k) v
      | none => fields k

/-- `WriteConfigFile`: exactly the fields of the struct -/
def ConfigStruct.render (c : ConfigStruct) (fields : String → Value) : ConfigFile :=
  fun k => if k ∈ c.keys then some (fields k) else none

/-- the structs of the two files, and `strings.ToLower` -/
structure ConfigContext where
  toLower : String → String
  app : ConfigStruct
  tm : ConfigStruct

section
variable (x : ConfigContext)

/-- `Viper.Get` -/
def Viper.get (v : Viper) (key : String) : Option Value := v.find (x.toLower key)

/-- `Viper.Set` -/
def Viper.set (v : Viper) (key : String) (value : Value) : Viper :=
  { v with override := fun k => if k = x.toLower key then some value else v.override k }

/-! ## the command -/

def appFileName : String := "app.toml"
def configFileName : String := "config.toml"

structure CmdConfig where
  fileName : String
  struct : ConfigStruct
  fields : String → Value

def newConfig (configName : String) (v : Viper) : Res CmdConfig :=
  if configName = appFileName then do
    let fields ← x.app.unmarshal v.allSettings x.app.zero
    .ok ⟨appFileName, x.app, fields⟩
  else if configName = configFileName then do
    let fields ← x.tm.unmarshal v.allSettings x.tm.zero
    .ok ⟨configFileName, x.tm, fields⟩
  else goError .other
    s!"invalid config file: {configName}, (support: {appFileName}/{configFileName})"

/-- what a command leaves: something printed, or a file of the home directory written -/
inductive ConfigOutput where
  | content (fields : String → Value)
  | value (v : Option Value)
  | written (home : Option Value) (fileName : String) (file : ConfigFile)

def CmdConfig.save (c : CmdConfig) (v : Viper) : Res ConfigOutput := do
  let fields ← c.struct.unmarshal v.allSettings c.fields
  .ok (.written (v.get x "home") c.fileName (c.struct.render fields))

/-- the name of the file, and up to two arguments -/
def runConfigCmd (v : Viper) (args : List String) : Res ConfigOutput :=
  match args with
  | [] => goPanic "index out of range [0] with length 0"
  | configName :: rest => do
    let operatorConfig ← newConfig x configName v
    match rest with
    | [] => .ok (.content operatorConfig.fields)
    | [key] => .ok (.value (v.get x key))
    | key :: value :: _ => operatorConfig.save x (v.set x key (.text value))

end

/-! ## setting a key -/

section
variable {x : ConfigContext} {v : Viper} {flags : String → Option Flag} {env : String → Option Value}
  {configToml appToml file : ConfigFile} {key value name : String} {home : Option Value}

/-- what a field holds before it is given a value -/
def ConfigStruct.held (c : ConfigStruct) (v : Viper) (k : String) : Value :=
  match v.allSettings k with
  | some w => c.fill k (c.zero k) w
  | none => c.zero k

/-- The file has the new value under the key, as a field of the struct takes it on, and everything
else that was there before. -/
structure SetsOneKey (x : ConfigContext) (key value : String) (file file' : ConfigFile) : Prop where
  new : file' (x.toLower key) = some
    (x.app.fill (x.toLower key) (x.app.zero (x.toLower key)) (.text value))
  others : ∀ k w, k ≠ x.toLower key → file k = some w → file' k = some w

/-- The key is a field of the struct and takes on the value whatever it held; every other key of the
file is a field too, it keeps its value when it is filled with it twice, and no flag or environment
variable stands in front of it. -/
structure Settable (x : ConfigContext) (v : Viper) (key value : String) (file : ConfigFile) :
    Prop where
  field : x.toLower key ∈ x.app.keys
  taken : x.app.fill (x.toLower key) (x.app.held v (x.toLower key)) (.text value)
    = x.app.fill (x.toLower key) (x.app.zero (x.toLower key)) (.text value)
  fields : ∀ k w, k ≠ x.toLower key → file k = some w → k ∈ x.app.keys
  kept : ∀ k w, k ≠ x.toLower key → file k = some w →
    x.app.fill k (x.app.fill k (x.app.zero k) ((v.stated k).getD w)) ((v.stated k).getD w) = w

theorem allSettings_set_self :
    (v.set x key (.text value)).allSettings (x.toLower key) = some (.text value) := by
  have hset : (v.set x key (.text value)).override (x.toLower key) = some (.text value) := if_pos rfl
  unfold Viper.allSettings Viper.find
  rw [hset]
  rfl

theorem allSettings_set_ne {k : String} (h : k ≠ x.toLower key) :
    (v.set x key (.text value)).allSettings k = v.allSettings k := by
  have hset : (v.set x key (.text value)).override k = v.override k := if_neg h
  unfold Viper.allSettings Viper.find
  rw [hset]
  rfl

/-- a key of `app.toml` has its value there unless something stands in front of it -/
theorem allSettings_load {k : String} {w : Value} (h : appToml k = some w) :
    (Viper.load flags env configToml appToml).allSettings k
      = some (((Viper.load flags env configToml appToml).stated k).getD w) := by
  have hconfig : (Viper.load flags env configToml appToml).config k = some w := by
    show (appToml k).or _ = _
    rw [h]
    rfl
  unfold Viper.allSettings Viper.find
  rw [hconfig, if_pos (by simp)]
  cases (Viper.load flags env configToml appToml).stated k with
  | none => rfl
  | some s => rfl

/-- **The file that is written**: the fields of the struct, filled twice. -/
theorem runConfigCmd_written (hfills : x.app.Fills)
    (h : runConfigCmd x v [appFileName, key, value] = .ok (.written home name file)) (k : String) :
    file k = if k ∈ x.app.keys then some (match (v.set x key (.text value)).allSettings k with
      | some w => x.app.fill k (x.app.held v k) w
      | none => x.app.held v k) else none := by
  obtain ⟨c, hc, h⟩ := bind_eq_ok.mp h
  obtain ⟨fields, hfields, hc⟩ := bind_eq_ok.mp hc
  cases hc
  obtain ⟨fields', hfields', h⟩ := bind_eq_ok.mp h
  cases h
  show (if k ∈ x.app.keys then some (fields' k) else none) = _
  by_cases hk : k ∈ x.app.keys
  · have hheld : fields k = x.app.held v k := hfills _ _ _ hfields k hk
    have hnew := hfills _ _ _ hfields' k hk
    rw [if_pos hk, if_pos hk, hnew]
    dsimp only
    rw [hheld]
  · rw [if_neg hk, if_neg hk]

theorem written_self (hfills : x.app.Fills)
    (h : runConfigCmd x v [appFileName, key, value] = .ok (.written home name file)) {w : Value} :
    file (x.toLower key) = some w ↔ x.toLower key ∈ x.app.keys ∧
      x.app.fill (x.toLower key) (x.app.held v (x.toLower key)) (.text value) = w := by
  rw [runConfigCmd_written hfills h, allSettings_set_self, Option.ite_none_right_eq_some,
    Option.some.injEq]

theorem written_other (hfills : x.app.Fills)
    (h : runConfigCmd x (.load flags env configToml appToml) [appFileName, key, value]
      = .ok (.written home name file)) {k : String} {w : Value} (hk : k ≠ x.toLower key)
    (hw : appToml k = some w) : file k = some w ↔ k ∈ x.app.keys ∧
      x.app.fill k (x.app.fill k (x.app.zero k)
        (((Viper.load flags env configToml appToml).stated k).getD w))
        (((Viper.load flags env configToml appToml).stated k).getD w) = w := by
  rw [runConfigCmd_written hfills h, allSettings_set_ne hk, ConfigStruct.held, allSettings_load hw,
    Option.ite_none_right_eq_some, Option.some.injEq]

/-- **Setting a key changes that key and nothing else exactly when** it and all other keys of the file
are fields of the struct, with nothing in front of them. -/
theorem setsOneKey_iff (hfills : x.app.Fills)
    (h : runConfigCmd x (.load flags env configToml appToml) [appFileName, key, value]
      = .ok (.written home name file)) :
    SetsOneKey x key value appToml file ↔
      Settable x (.load flags env configToml appToml) key value appToml := by
  constructor
  · intro hsets
    obtain ⟨hfield, htaken⟩ := (written_self hfills h).mp hsets.new
    have hkept : ∀ k w, k ≠ x.toLower key → appToml k = some w → k ∈ x.app.keys ∧ _ :=
      fun k w hk hw => (written_other hfills h hk hw).mp (hsets.others k w hk hw)
    exact ⟨hfield, htaken, fun k w hk hw => (hkept k w hk hw).1, fun k w hk hw => (hkept k w hk hw).2⟩
  · intro hsettable
    constructor
    · exact (written_self hfills h).mpr ⟨hsettable.field, hsettable.taken⟩
    · intro k w hk hw
      exact (written_other hfills h hk hw).mpr
        ⟨hsettable.fields k w hk hw, hsettable.kept k w hk hw⟩

end

/-! ## the file of the node -/

/-- the keys of the section `wasm` with their defaults, and the defaults of the server -/
structure AppDefaults where
  server : String → Value
  wasmKeys : List String
  wasm : String → Value

/-- `initAppConfig`: the struct of the server with the section `wasm`, as the node writes it -/
def initAppConfig (x : ConfigContext) (d : AppDefaults) : ConfigFile := fun k =>
  if k = "minimum-gas-prices" then some (.text "0.02umec")
  else if k ∈ x.app.keys then some (d.server k)
  else if k ∈ d.wasmKeys then some (d.wasm k)
  else none

/-- **No key of the node's own file can be set** without a loss: the section `wasm` is not in the
struct. -/
theorem not_setsOneKey_initAppConfig {x : ConfigContext} {d : AppDefaults} {k : String}
    {flags : String → Option Flag} {env : String → Option Value} {configToml file : ConfigFile}
    {key value name : String} {home : Option Value} (hfills : x.app.Fills) (hk : k ∈ d.wasmKeys)
    (hne : k ≠ "minimum-gas-prices") (hno : k ∉ x.app.keys)
    (h : runConfigCmd x (.load flags env configToml (initAppConfig x d)) [appFileName, key, value]
      = .ok (.written home name file)) :
    ¬ SetsOneKey x key value (initAppConfig x d) file := by
  intro hsets
  by_cases hkey : k = x.toLower key
  · exact hno (hkey ▸ ((written_self hfills h).mp hsets.new).1)
  · have hold : initAppConfig x d k = some (d.wasm k) := by
      unfold initAppConfig
      rw [if_neg hne, if_neg hno, if_pos hk]
    exact hno ((written_other hfills h hkey hold).mp (hsets.others k _ hkey hold)).1

/-! ## two files -/

/-- a struct whose fields take on every value -/
def plainStruct (keys : List String) : ConfigStruct where
  keys := keys
  zero _ := .text ""
  fill _ _ v := v
  unmarshal settings fields := .ok fun k => (settings k).getD (fields k)

theorem plainStruct_fills (keys : List String) : (plainStruct keys).Fills := by
  intro settings fields fields' h k _
  cases h
  cases hk : settings k with
  | none => simp [hk]
  | some v => simp [hk, plainStruct]

/-- two fields of the server; keys are in lower case already -/
def twoFields : ConfigContext where
  toLower s := s
  app := plainStruct ["minimum-gas-prices", "pruning"]
  tm := plainStruct ["moniker"]

/-- a file with these two, and one with a wasm setting besides -/
def serverToml : ConfigFile := fun k =>
  if k = "minimum-gas-prices" then some (.text "0.02umec")
  else if k = "pruning" then some (.text "default") else none

def nodeToml : ConfigFile := fun k =>
  if k = "wasm.query_gas_limit" then some (.int 300000) else serverToml k

theorem setsOneKey_server : ∃ home name file,
    runConfigCmd twoFields (.load (fun _ => none) (fun _ => none) (fun _ => none) serverToml)
      [appFileName, "minimum-gas-prices", "0.05umec"] = .ok (.written home name file) ∧
    SetsOneKey twoFields "minimum-gas-prices" "0.05umec" serverToml file := by
  refine ⟨_, _, _, rfl, (setsOneKey_iff (plainStruct_fills _) rfl).mpr ?_⟩
  refine ⟨by decide, rfl, fun k w _ hw => ?_, fun k w _ _ => rfl⟩
  show k ∈ ["minimum-gas-prices", "pruning"]
  unfold serverToml at hw
  split_ifs at hw with hprices hpruning
  · simp [hprices]
  · simp [hpruning]

/-- Another minimum gas price in the file of the node, and the wasm setting is gone. -/
theorem setsOneKey_node_false : ¬ ∀ (appToml : ConfigFile) (key value : String) home name file,
    runConfigCmd twoFields (.load (fun _ => none) (fun _ => none) (fun _ => none) appToml)
      [appFileName, key, value] = .ok (.written home name file) →
    SetsOneKey twoFields key value appToml file := by
  intro hall
  have hkept := (hall nodeToml "minimum-gas-prices" "0.05umec" _ _ _ rfl).others
    "wasm.query_gas_limit" (.int 300000) (by decide) rfl
  have hgone : ∀ fields, (plainStruct ["minimum-gas-prices", "pruning"]).render fields
      "wasm.query_gas_limit" = none := fun _ => if_neg (by decide)
  rw [show twoFields.app = plainStruct ["minimum-gas-prices", "pruning"] from rfl, hgone] at hkept
  cases hkept

end MeChain

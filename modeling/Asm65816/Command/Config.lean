import Asm65816.Asset.Path
import Asm65816.Command.Literal
import Asm65816.Output.Format

/-!
# Project configuration

Defaults for a project, in the form `(field: value, ...)`. Every field may be left out and none
may be repeated; an optional value is written as `Some(...)` or `None`. Attributes in front, such
as `#![enable(implicit_some)]`, change what may be left out.
-/

namespace Asm65816

/-- The defaults of a project. -/
structure ProjectConfig where
  includeDirectories : List String
  format : Option OutputFormat
  unused : Option UInt8
  strip : Option Bool
  listing : Option Bool
  deriving DecidableEq, Repr, Inhabited

namespace ProjectConfig

/-- No defaults. -/
def empty : ProjectConfig := ⟨[], none, none, none, none⟩

/-- The configuration with its relative directories taken from `base`. -/
def rebase (config : ProjectConfig) (base : String) : ProjectConfig :=
  { config with includeDirectories := config.includeDirectories.map (Path.join base) }

end ProjectConfig

/-- What the attributes in front of a configuration ask for. -/
structure ConfigRules where
  /-- An optional value may stand without `Some`. -/
  bareValues : Bool
  /-- The configuration has to be named. -/
  named : Bool
  deriving DecidableEq, Repr

namespace ConfigReader

/-- The rules with one more extension. Two extensions are about values that no configuration
has. -/
def extension (rules : ConfigRules) : ConfigReader ConfigRules := do
  match ← name with
  | "implicit_some" => return { rules with bareValues := true }
  | "explicit_struct_names" => return { rules with named := true }
  | "unwrap_newtypes" | "unwrap_variant_newtypes" => return rules
  | _ => failure

/-- Extensions with commas between them and possibly one at the end. There are at most `limit`
of them. -/
def extensions (rules : ConfigRules) : Nat → ConfigReader ConfigRules
  | 0 => failure
  | limit + 1 => do
    let rules ← extension rules
    skip
    if ← take? ',' then
      skip
      if ← atWord then extensions rules limit else return rules
    else return rules

/-- Signs that have to come next, each with a gap behind it. -/
def signs (expected : List String) : ConfigReader Unit :=
  expected.forM fun sign => do
    expectAll sign
    skip

/-- The attributes in front of a configuration, at most `limit` of them. -/
def attributes (rules : ConfigRules) : Nat → ConfigReader ConfigRules
  | 0 => failure
  | limit + 1 => do
    if (← get).head? == some '#' then
      signs ["#", "!", "[", "enable", "("]
      let rules ← extensions rules (← get).length
      signs [")", "]"]
      attributes rules limit
    else return rules

/-- The name of a format. -/
def format : ConfigReader OutputFormat := do
  match ← name with
  | "Memory" => return .memory
  | "IntelHex" => return .intelHex
  | _ => failure

/-- `None`, or a value in `Some(...)`. Where values may be bare, so may be the inside of
`Some`. -/
def optional {α : Type} (rules : ConfigRules) (value : ConfigReader α) :
    ConfigReader (Option α) := do
  let start ← get
  match ← word with
  | "None" => return none
  | "Some" =>
    skip
    if ← take? '(' then
      skip
      let content ← value
      skip
      let _ ← take? ','
      skip
      expect ')'
      return some content
    else if rules.bareValues then return some (← value)
    else failure
  | _ =>
    if rules.bareValues then
      set start
      return some (← value)
    else failure

/-- Items up to the closing bracket, with commas between them and possibly one at the end. There
are at most `limit` items. -/
def items (limit : Nat) : ConfigReader (List String) := do
  match limit with
  | 0 => failure
  | limit + 1 =>
    skip
    if ← take? ']' then return []
    else
      let first ← text
      skip
      if ← take? ',' then return first :: (← items limit)
      else
        expect ']'
        return [first]

/-- A list of texts. -/
def texts : ConfigReader (List String) := do
  expect '['
  items ((← get).length + 1)

/-- The value of a field. -/
def field (rules : ConfigRules) (config : ProjectConfig) (name : String) :
    ConfigReader ProjectConfig := do
  match name with
  | "include_dirs" => return { config with includeDirectories := ← texts }
  | "format" => return { config with format := ← optional rules format }
  | "unused_byte" => return { config with unused := ← optional rules byte }
  | "ihex_strip" => return { config with strip := ← optional rules bool }
  | "listing" => return { config with listing := ← optional rules bool }
  | _ => failure

/-- Fields up to the closing parenthesis; `names` are those that have not come up yet. -/
def fields (rules : ConfigRules) (config : ProjectConfig) (names : List String) :
    Nat → ConfigReader ProjectConfig
  | 0 => do
    skip
    expect ')'
    return config
  | limit + 1 => do
    skip
    if ← take? ')' then return config
    else
      let name ← name
      if !names.contains name then failure
      else
        skip
        expect ':'
        skip
        let config ← field rules config name
        skip
        if ← take? ',' then fields rules config (names.erase name) limit
        else
          expect ')'
          return config

/-- The names of all fields. -/
def fieldNames : List String := ["include_dirs", "format", "unused_byte", "ihex_strip", "listing"]

/-- The name of the configuration, which may be left out unless the rules ask for it. -/
def title (rules : ConfigRules) : ConfigReader Unit := do
  if ← atWord then
    if (← name) != "ProjectConfig" then failure
  else if rules.named then failure

/-- A whole configuration. -/
def config : ConfigReader ProjectConfig := do
  skip
  let rules ← attributes ⟨false, false⟩ ((← get).length + 1)
  title rules
  skip
  expect '('
  let config ← fields rules .empty fieldNames fieldNames.length
  skip
  if (← get).isEmpty then return config else failure

end ConfigReader

/-- Reads a configuration. -/
def ProjectConfig.read? (text : String) : Option ProjectConfig :=
  (ConfigReader.config.run text.toList).map Prod.fst

end Asm65816

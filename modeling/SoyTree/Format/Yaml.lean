import SoyTree.Format.Data
import SoyTree.Format.Yaml.Scalar

/-! # The YAML format

Data in block style. Fields below a key are indented by two blanks, list items are not.
-/

namespace SoyTree

namespace Yaml

/-- Numbers are laid out as in JSON, but exponents that are not negative have no sign, and
infinities have a form of their own. -/
def numberLayout : Number.Layout where
  tie := .toEven
  exponential := fun order => decide (order < -4 ∨ 16 < order)
  whole := ".0"
  exponentSign := ""
  infinity := ".inf"
  negativeInfinity := "-.inf"

def pad (indent : Nat) : String :=
  String.ofList (spaces indent)

end Yaml

namespace Data

mutual

/-- A value behind a key or behind the mark of a list item, with all of its line breaks. Lines
that follow the first belong to a parent indented by `indent`. -/
def yamlValue (indent : Nat) : Data → String
  | null => " null\n"
  | bool value => if value then " true\n" else " false\n"
  | nat value => " " ++ toString value ++ "\n"
  | number value => " " ++ Yaml.numberLayout.write value ++ "\n"
  | string value => " " ++ Yaml.writeText (indent + 2) value
  | list [] => " []\n"
  | list (item :: rest) => "\n" ++ yamlItems indent (item :: rest)
  | record [] => " \x7b\x7d\n"
  | record (field :: rest) =>
    "\n" ++ Yaml.pad (indent + 2) ++ yamlFields (indent + 2) (field :: rest)

def yamlItems (indent : Nat) : List Data → String
  | [] => ""
  | record (field :: fields) :: rest =>
    Yaml.pad indent ++ "- " ++ yamlFields (indent + 2) (field :: fields) ++ yamlItems indent rest
  | item :: rest => Yaml.pad indent ++ "-" ++ item.yamlValue indent ++ yamlItems indent rest

/-- The fields of a record, the first of them without blanks in front. -/
def yamlFields (indent : Nat) : List (String × Data) → String
  | [] => ""
  | [(key, value)] => key ++ ":" ++ value.yamlValue indent
  | (key, value) :: next :: rest =>
    key ++ ":" ++ value.yamlValue indent ++ Yaml.pad indent ++ yamlFields indent (next :: rest)

end

end Data

def Program.renderYaml (p : Program) : String :=
  match p.toData with
  | .record fields => Data.yamlFields 0 fields
  | other => other.yamlValue 0

end SoyTree

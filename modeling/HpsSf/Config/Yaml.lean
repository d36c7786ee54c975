import HpsSf.Foundation.Text

/-! The node trees of yaml-cpp, as far as the configuration reads and writes them. -/

set_option autoImplicit false

namespace HpsSf.Config
open Foundation (Text)

/-- `YAML::Node`; the entries of a map are in document order, with scalar keys. -/
inductive Node where
  | null
  | scalar (text : Text)
  | sequence (items : List Node)
  | map (entries : List (Text × Node))
  deriving Repr

/-- What yaml-cpp throws. -/
inductive YamlFault where
  | parser
  | badSubscript
  | badConversion
  deriving DecidableEq, Repr

/-- The parts of yaml-cpp that are not modelled: its printer, its parser, and
`as<std::string>()` of a null node, which is an error in some versions. -/
structure YamlCpp where
  emit : Node → Text
  load : Text → Option Node
  nullText : Option Text

namespace Node

/-- `node[key]`; `none` is a node for which `IsDefined()` is false. -/
def get (node : Node) (key : Text) : Except YamlFault (Option Node) :=
  match node with
  | .map entries => .ok (entries.lookup key)
  -- A null node and a sequence answer with an undefined node, a scalar throws.
  | .scalar _ => .error .badSubscript
  | _ => .ok none

/-- `node[i]` for all `i` below `node.size()`. A map has no defined entry at a number. -/
def items : Node → List Node
  | .sequence items => items
  | _ => []

/-- `node.as<std::string>()` -/
def asString (yaml : YamlCpp) : Node → Except YamlFault Text
  | .scalar text => .ok text
  | .null =>
    match yaml.nullText with
    | some text => .ok text
    | none => .error .badConversion
  | _ => .error .badConversion

end Node
end HpsSf.Config

import HpsSf.Config.Yaml
import HpsSf.Foundation.OrderedSet
import HpsSf.Foundation.Traverse
import HpsSf.Foundation.UnorderedSet
import Mathlib.Data.Char
import Mathlib.Data.List.Lex
import Mathlib.Data.Prod.Lex

/-! The conversions between containers and text.

Every element goes through its own text and a node: the encoder loads the text
of an element into a node, and the decoder prints a node and converts the text.
-/

set_option autoImplicit false

namespace HpsSf.Config
open Foundation

/-- `node[i]` for all `i` below `node.size()`, printed. The entries of a map are
undefined at a number, and an undefined node prints nothing. -/
def Node.printed (yaml : YamlCpp) : Node → List Text
  | .sequence items => items.map yaml.emit
  | .map entries => entries.map fun _ => []
  | .null | .scalar _ => []

/-- `it->first.Scalar()` and `it->second`, printed, for all `it`. The parts of an
item of a sequence are invalid nodes. -/
def Node.printedPairs (yaml : YamlCpp) : Node → Option (List (Text × Text))
  | .map entries => some (entries.map fun entry => (entry.1, yaml.emit entry.2))
  | .sequence [] | .null | .scalar _ => some []
  | .sequence (_ :: _) => none

/-- `hps_LexicalCast<T, std::string>` and `hps_LexicalCast<std::string, T>`. -/
structure LexicalCast (T : Type) where
  toStr : T → Option Text
  fromStr : Text → Option T

namespace LexicalCast

/-! ## Numbers and strings -/

/-- `boost::lexical_cast` to text. -/
def decimal (x : Int) : Text := if x < 0 then '-' :: Nat.toDigits 10 x.natAbs else Nat.toDigits 10 x.natAbs

/-- The digits behind a sign. -/
def readDigits (text : Text) : Option Nat :=
  if text.isEmpty || !text.all Char.isDigit then none else some (Nat.ofDigitChars 10 text 0)

/-- The value of a text without regard to the range. An unsigned type takes a
minus sign for the complement. -/
def readSigned (low high : Int) : Text → Option Int
  | '-' :: digits => (readDigits digits).map fun (n : Nat) => if low = 0 then (high + 1 - n) % (high + 1) else -n
  | '+' :: digits => (readDigits digits).map Int.ofNat
  | digits => (readDigits digits).map Int.ofNat

/-- An integer type with its range. -/
def integer (low high : Int) : LexicalCast {x : Int // low ≤ x ∧ x ≤ high} where
  toStr x := some (decimal x)
  fromStr text := (readSigned low high text).bind fun x => if range : low ≤ x ∧ x ≤ high then some ⟨x, range⟩ else none

def string : LexicalCast Text where
  toStr := some
  fromStr := some

/-! ## Containers -/

section Containers

variable (yaml : YamlCpp) {T : Type} (cast : LexicalCast T)

/-- `YAML::Load(hps_LexicalCast<T, std::string>()(i))` -/
def load (i : T) : Option Node := (cast.toStr i).bind yaml.load

/-- The loop of the encoders with `push_back`. A node that nothing was put into prints nothing. -/
def writeItems (v : List T) : Option Text :=
  (v.mapM (cast.load yaml)).map fun items => if items.isEmpty then [] else yaml.emit (.sequence items)

/-- The loop of the decoders with `node[i]`. -/
def readItems (v : Text) : Option (List T) := (yaml.load v).bind fun node => (node.printed yaml).mapM cast.fromStr

/-- The loop of the encoders with `node[i.first] = ...`. -/
def writePairs (v : List (Text × T)) : Option Text :=
  (v.mapM fun i => (cast.load yaml i.2).map fun node => (i.1, node)).map fun entries =>
    if entries.isEmpty then [] else yaml.emit (.map entries)

/-- The loop of the decoders over `it->first` and `it->second`. -/
def readPairs (v : Text) : Option (List (Text × T)) :=
  (yaml.load v).bind fun node => (node.printedPairs yaml).bind fun pairs =>
    pairs.mapM fun it => (cast.fromStr it.2).map fun x => (it.1, x)

def vector : LexicalCast (List T) where
  toStr v := cast.writeItems yaml v
  fromStr v := cast.readItems yaml v

def list : LexicalCast (List T) where
  toStr v := cast.writeItems yaml v
  fromStr v := cast.readItems yaml v

def set [LinearOrder T] : LexicalCast (OrderedSet (id : T → T)) where
  toStr v := cast.writeItems yaml v.elements
  fromStr v := (cast.readItems yaml v).map fun vec => vec.foldl OrderedSet.insert OrderedSet.empty

def unorderedSet [DecidableEq T] : LexicalCast (UnorderedSet (id : T → T)) where
  toStr v := cast.writeItems yaml v.elements
  fromStr v := (cast.readItems yaml v).map fun vec => vec.foldl UnorderedSet.insert UnorderedSet.empty

def map : LexicalCast (OrderedSet (Prod.fst : Text × T → Text)) where
  toStr v := cast.writePairs yaml v.elements
  fromStr v := (cast.readPairs yaml v).map fun vec => vec.foldl OrderedSet.insert OrderedSet.empty

def unorderedMap : LexicalCast (UnorderedSet (Prod.fst : Text × T → Text)) where
  toStr v := cast.writePairs yaml v.elements
  fromStr v := (cast.readPairs yaml v).map fun vec => vec.foldl UnorderedSet.insert UnorderedSet.empty

end Containers
end LexicalCast

/-! ## All types -/

/-- The types of variables, by whether they have `operator<`. -/
inductive Ty : (ordered : Bool) → Type where
  | integer (low high : Int) : Ty true
  | string : Ty true
  | vector {ordered : Bool} (t : Ty ordered) : Ty ordered
  | list {ordered : Bool} (t : Ty ordered) : Ty ordered
  | set (t : Ty true) : Ty true
  | unorderedSet (t : Ty true) : Ty false
  | map {ordered : Bool} (t : Ty ordered) : Ty ordered
  | unorderedMap {ordered : Bool} (t : Ty ordered) : Ty false

namespace Ty

/-- The values of a type with its `operator<`, which compares containers by their
elements in order. Types without `operator<` get that of their elements; no set
is made of them. -/
def kind : {ordered : Bool} → Ty ordered → (T : Type) × LinearOrder T
  | _, .integer low high => ⟨{x : Int // low ≤ x ∧ x ≤ high}, inferInstance⟩
  | _, .string => ⟨Text, (inferInstance : LinearOrder (List Char))⟩
  | _, .vector t | _, .list t => ⟨List t.kind.1, let _ := t.kind.2; inferInstance⟩
  | _, .set t => let _ := t.kind.2
    ⟨OrderedSet (id : t.kind.1 → t.kind.1), LinearOrder.lift' OrderedSet.elements fun _ _ => OrderedSet.ext⟩
  | _, .unorderedSet t => let _ := t.kind.2
    ⟨UnorderedSet (id : t.kind.1 → t.kind.1), LinearOrder.lift' UnorderedSet.elements fun _ _ => UnorderedSet.ext⟩
  | _, .map t => let _ := t.kind.2
    ⟨OrderedSet (Prod.fst : Text × t.kind.1 → Text),
      @LinearOrder.lift' _ (List (Text ×ₗ t.kind.1)) inferInstance OrderedSet.elements fun _ _ => OrderedSet.ext⟩
  | _, .unorderedMap t => let _ := t.kind.2
    ⟨UnorderedSet (Prod.fst : Text × t.kind.1 → Text),
      @LinearOrder.lift' _ (List (Text ×ₗ t.kind.1)) inferInstance UnorderedSet.elements fun _ _ => UnorderedSet.ext⟩

abbrev Value {ordered : Bool} (t : Ty ordered) : Type := t.kind.1

instance {ordered : Bool} (t : Ty ordered) : LinearOrder t.Value := t.kind.2

def cast (yaml : YamlCpp) : {ordered : Bool} → (t : Ty ordered) → LexicalCast t.Value
  | _, .integer low high => .integer low high
  | _, .string => .string
  | _, .vector t => (t.cast yaml).vector yaml
  | _, .list t => (t.cast yaml).list yaml
  | _, .set t => (t.cast yaml).set yaml
  | _, .unorderedSet t => (t.cast yaml).unorderedSet yaml
  | _, .map t => (t.cast yaml).map yaml
  | _, .unorderedMap t => (t.cast yaml).unorderedMap yaml

/-- `operator==`. Hashed containers compare what they hold, without regard to the order. -/
def same : {ordered : Bool} → (t : Ty ordered) → t.Value → t.Value → Prop
  | _, .integer _ _, v, w => v = w
  | _, .string, v, w => v = w
  | _, .vector t, v, w | _, .list t, v, w => List.Forall₂ t.same v w
  | _, .set t, v, w => List.Forall₂ t.same v.elements w.elements
  | _, .unorderedSet _, v, w => v.elements.length = w.elements.length ∧ ∀ x ∈ v.elements, x ∈ w.elements
  | _, .map t, v, w => List.Forall₂ (fun x y => x.1 = y.1 ∧ t.same x.2 y.2) v.elements w.elements
  | _, .unorderedMap t, v, w => v.elements.length = w.elements.length ∧
      ∀ x ∈ v.elements, ∃ y ∈ w.elements, x.1 = y.1 ∧ t.same x.2 y.2

/-- The strings in a value at any depth, but for the keys of maps. -/
def strings : {ordered : Bool} → (t : Ty ordered) → t.Value → List Text
  | _, .integer _ _, _ => []
  | _, .string, v => [v]
  | _, .vector t, v | _, .list t, v => v.flatMap t.strings
  | _, .set t, v => v.elements.flatMap t.strings
  | _, .unorderedSet t, v => v.elements.flatMap t.strings
  | _, .map t, v => v.elements.flatMap fun x => t.strings x.2
  | _, .unorderedMap t, v => v.elements.flatMap fun x => t.strings x.2

def container : {ordered : Bool} → Ty ordered → Bool
  | _, .integer _ _ | _, .string => false
  | _, _ => true

/-- The conversions of a type give a value back. -/
def RoundTrips (yaml : YamlCpp) {ordered : Bool} (t : Ty ordered) (v : t.Value) : Prop :=
  ∃ text w, (t.cast yaml).toStr v = some text ∧ (t.cast yaml).fromStr text = some w ∧ t.same w v

end Ty

/-- The text is loaded, and printed again as it stands. -/
def YamlCpp.Keeps (yaml : YamlCpp) (text : Text) : Prop := (yaml.load text).map yaml.emit = some text

instance (yaml : YamlCpp) (text : Text) : Decidable (yaml.Keeps text) := inferInstanceAs (Decidable (_ = _))

/-- A tree that was printed is loaded back, an empty text is null, and a decimal
number is printed as it was written. -/
structure YamlCpp.Documented (yaml : YamlCpp) : Prop where
  back : ∀ node, yaml.load (yaml.emit node) = some node
  blank : yaml.load [] = some .null
  number : ∀ x, yaml.Keeps (LexicalCast.decimal x)

/-! ## What comes back -/

namespace LexicalCast

theorem readDigits_toDigits (n : Nat) : readDigits (Nat.toDigits 10 n) = some n := by
  have digits : (Nat.toDigits 10 n).all Char.isDigit = true :=
    List.all_eq_true.mpr fun c member => Nat.isDigit_of_mem_toDigits (by decide) (by decide) member
  rw [readDigits, digits, Nat.ofDigitChars_ten_toDigits]
  simp [Nat.toDigits_ne_nil]

theorem integer_back {low high : Int} (x : {x : Int // low ≤ x ∧ x ≤ high}) :
    (integer low high).fromStr (decimal x) = some x := by
  obtain ⟨x, range⟩ := x
  have value : readSigned low high (decimal x) = some x := by
    unfold decimal
    split
    next negative =>
      have bounded : low ≠ 0 := by omega
      rw [readSigned, readDigits_toDigits, Option.map_some, if_neg bounded]
      congr 1
      omega
    next positive =>
      have signless (c : Char) (rest : Text) (same : Nat.toDigits 10 x.natAbs = c :: rest) : c ≠ '-' ∧ c ≠ '+' := by
        have digit : c.isDigit = true :=
          Nat.isDigit_of_mem_toDigits (by decide) (by decide) (same ▸ List.mem_cons_self ..)
        constructor <;> (rintro rfl; cases digit)
      have plain : readSigned low high (Nat.toDigits 10 x.natAbs) =
          (readDigits (Nat.toDigits 10 x.natAbs)).map Int.ofNat := by
        unfold readSigned
        split
        next same => exact absurd rfl (signless _ _ same).1
        next same => exact absurd rfl (signless _ _ same).2
        next => rfl
      rw [plain, readDigits_toDigits, Option.map_some]
      congr 1
      simp only [Int.ofNat_eq_natCast]
      omega
  change (readSigned low high (decimal x)).bind _ = _
  rw [value, Option.bind_some, dif_pos range]

variable (yaml : YamlCpp) {T : Type} (cast : LexicalCast T)

/-- What the decoder of a container gets for an element. -/
def passed (i : T) : Option T := (cast.load yaml i).bind fun node => cast.fromStr (yaml.emit node)

variable {yaml} {cast}

/-- A decoder that loads its text sees the same node in the printed text. -/
theorem passed_of_loads (documented : yaml.Documented) {i : T} {read : Node → Option T}
    (loads : ∀ text, cast.fromStr text = (yaml.load text).bind read) :
    cast.passed yaml i = (cast.toStr i).bind cast.fromStr := by
  have printed (node : Node) : cast.fromStr (yaml.emit node) = read node := by
    rw [loads, documented.back, Option.bind_some]
  simp only [passed, load, printed, Option.bind_assoc, ← loads]

theorem writeItems_readItems (documented : yaml.Documented) (v : List T) :
    (cast.writeItems yaml v).bind (cast.readItems yaml) = v.mapM (cast.passed yaml) := by
  have read (items : List Node) : cast.readItems yaml (if items.isEmpty then [] else yaml.emit (.sequence items)) =
      items.mapM fun node => cast.fromStr (yaml.emit node) := by
    cases items with
    | nil =>
      rw [readItems, List.isEmpty_nil, if_pos rfl, documented.blank]
      rfl
    | cons first rest =>
      rw [readItems, List.isEmpty_cons, if_neg Bool.false_ne_true, documented.back, Option.bind_some]
      exact List.mapM_map
  rw [writeItems, Option.bind_map]
  simp only [Function.comp_def, read]
  exact mapM_bind_mapM v

theorem writePairs_readPairs (cast : LexicalCast T) (documented : yaml.Documented) (v : List (Text × T)) :
    (cast.writePairs yaml v).bind (cast.readPairs yaml) =
      v.mapM fun i => (cast.passed yaml i.2).map fun x => (i.1, x) := by
  have read (entries : List (Text × Node)) :
      cast.readPairs yaml (if entries.isEmpty then [] else yaml.emit (.map entries)) =
        entries.mapM fun entry => (cast.fromStr (yaml.emit entry.2)).map fun x => (entry.1, x) := by
    cases entries with
    | nil =>
      rw [readPairs, List.isEmpty_nil, if_pos rfl, documented.blank]
      rfl
    | cons first rest =>
      rw [readPairs, List.isEmpty_cons, if_neg Bool.false_ne_true, documented.back, Option.bind_some]
      exact List.mapM_map
  have pass (i : Text × T) : ((cast.load yaml i.2).map fun node => (i.1, node)).bind (fun entry =>
      (cast.fromStr (yaml.emit entry.2)).map fun x => (entry.1, x)) = (cast.passed yaml i.2).map fun x => (i.1, x) := by
    rw [passed, Option.bind_map, Option.map_bind]
    rfl
  rw [writePairs, Option.bind_map]
  simp only [Function.comp_def, read]
  rw [mapM_bind_mapM]
  simp only [pass]

end LexicalCast
end HpsSf.Config

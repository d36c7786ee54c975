import HpsSf.Config.LexicalCast

/-! Which values come back from their own text.

A string inside of a container is loaded as YAML and printed again, so what comes
back is what YAML makes of it. Everything else comes back as it is, at any depth.
-/

set_option autoImplicit false

namespace HpsSf.Config
open Foundation
open LexicalCast (writeItems_readItems writePairs_readPairs passed_of_loads)

namespace Parts

/-- A list is its elements. -/
def ofList (T : Type) : Parts (List T) T := ⟨id, id, fun _ => rfl, fun _ _ => id⟩

def ofOrdered {A K : Type} [LT K] [DecidableLT K] [Trans (α := K) (β := K) (γ := K) (· < ·) (· < ·) (· < ·)]
    [Std.Irrefl (α := K) (· < ·)] (key : A → K) : Parts (OrderedSet key) A where
  elements := OrderedSet.elements
  assemble parts := parts.foldl OrderedSet.insert OrderedSet.empty
  whole v := OrderedSet.ext (OrderedSet.foldl_insert OrderedSet.empty v.sorted)
  inside _ _ member := (OrderedSet.mem_foldl_insert member).resolve_left List.not_mem_nil

def ofUnordered {A K : Type} [DecidableEq K] (key : A → K) : Parts (UnorderedSet key) A where
  elements := UnorderedSet.elements
  assemble parts := parts.foldl UnorderedSet.insert UnorderedSet.empty
  whole v := UnorderedSet.ext (UnorderedSet.foldl_insert UnorderedSet.empty v.distinct)
  inside _ _ member := (UnorderedSet.mem_foldl_insert member).resolve_left List.not_mem_nil

theorem passed_ofList {T : Type} {pass : T → Option T} (v : List T) : (ofList T).passed pass v = v.mapM pass :=
  Option.map_id'

end Parts

namespace LexicalCast

variable {yaml : YamlCpp} {T : Type} (cast : LexicalCast T)

/-- What comes back of an entry of a map: its key as it is. -/
def passedPair (yaml : YamlCpp) (i : Text × T) : Option (Text × T) := (cast.passed yaml i.2).map fun x => (i.1, x)

theorem passed_vector (documented : yaml.Documented) (v : List T) :
    (cast.vector yaml).passed yaml v = (Parts.ofList T).passed (cast.passed yaml) v := by
  rw [Parts.passed_ofList, ← writeItems_readItems documented]
  exact passed_of_loads documented fun _ => rfl

theorem passed_set [LinearOrder T] (documented : yaml.Documented) (v : OrderedSet (id : T → T)) :
    (cast.set yaml).passed yaml v = (Parts.ofOrdered id).passed (cast.passed yaml) v := by
  rw [Parts.passed, ← writeItems_readItems documented, Option.map_bind]
  exact passed_of_loads documented fun _ => Option.map_bind ..

theorem passed_unorderedSet [DecidableEq T] (documented : yaml.Documented) (v : UnorderedSet (id : T → T)) :
    (cast.unorderedSet yaml).passed yaml v = (Parts.ofUnordered id).passed (cast.passed yaml) v := by
  rw [Parts.passed, ← writeItems_readItems documented, Option.map_bind]
  exact passed_of_loads documented fun _ => Option.map_bind ..

theorem passed_map (documented : yaml.Documented) (v : OrderedSet (Prod.fst : Text × T → Text)) :
    (cast.map yaml).passed yaml v = (Parts.ofOrdered Prod.fst).passed (cast.passedPair yaml) v := by
  have pairs := writePairs_readPairs cast documented v.elements
  rw [Parts.passed, show (Parts.ofOrdered Prod.fst).elements v = v.elements from rfl]
  unfold passedPair
  rw [← pairs, Option.map_bind]
  exact passed_of_loads documented fun _ => Option.map_bind ..

theorem passed_unorderedMap (documented : yaml.Documented) (v : UnorderedSet (Prod.fst : Text × T → Text)) :
    (cast.unorderedMap yaml).passed yaml v = (Parts.ofUnordered Prod.fst).passed (cast.passedPair yaml) v := by
  have pairs := writePairs_readPairs cast documented v.elements
  rw [Parts.passed, show (Parts.ofUnordered Prod.fst).elements v = v.elements from rfl]
  unfold passedPair
  rw [← pairs, Option.map_bind]
  exact passed_of_loads documented fun _ => Option.map_bind ..

theorem passed_eq (i : T) :
    cast.passed yaml i = (cast.toStr i).bind fun text => ((yaml.load text).map yaml.emit).bind cast.fromStr := by
  simp only [passed, load, Option.bind_assoc, Option.bind_map, Function.comp_def]

theorem passed_integer (documented : yaml.Documented) {low high : Int} (x : {x : Int // low ≤ x ∧ x ≤ high}) :
    (integer low high).passed yaml x = some x := by
  calc (integer low high).passed yaml x
      = ((yaml.load (decimal x)).map yaml.emit).bind (integer low high).fromStr := passed_eq _ x
    _ = some x := by rw [documented.number, Option.bind_some, integer_back]

theorem passed_string (s : Text) : string.passed yaml s = (yaml.load s).map yaml.emit :=
  (passed_eq _ s).trans (Option.bind_fun_some _)

theorem passedPair_eq_some_iff {x y : Text × T} :
    cast.passedPair yaml x = some y ↔ x.1 = y.1 ∧ cast.passed yaml x.2 = some y.2 := by
  simp [passedPair, Prod.ext_iff, and_comm]

theorem passedPair_again (again : ∀ x y, cast.passed yaml x = some y → cast.passed yaml y = some y) {x y : Text × T}
    (result : cast.passedPair yaml x = some y) : cast.passedPair yaml y = some y := by
  rw [passedPair_eq_some_iff] at result ⊢
  exact ⟨rfl, again _ _ result.2⟩

end LexicalCast

namespace Ty

variable {yaml : YamlCpp} {ordered : Bool}

/-! ## Equality -/

theorem same_refl (t : Ty ordered) (v : t.Value) : t.same v v := by
  induction t with
  | integer | string => rfl
  | vector t ih | list t ih => exact List.forall₂_same.mpr fun x _ => ih x
  | set t ih => exact List.forall₂_same.mpr fun x _ => ih x
  | unorderedSet t => exact ⟨rfl, fun x => id⟩
  | map t ih => exact List.forall₂_same.mpr fun x _ => ⟨rfl, ih x.2⟩
  | unorderedMap t ih => exact ⟨rfl, fun x member => ⟨x, member, rfl, ih x.2⟩⟩

/-- The types with `operator<` have no hashed parts, and their equality is plain. -/
theorem eq_of_same (t : Ty ordered) (plain : ordered = true) {v w : t.Value} (same : t.same v w) : v = w := by
  induction t with
  | integer | string => exact same
  | vector t ih | list t ih => exact List.forall₂_eq_eq_eq ▸ same.imp fun x y => ih plain
  | set t ih => exact OrderedSet.ext (List.forall₂_eq_eq_eq ▸ same.imp fun x y => ih rfl)
  | map t ih =>
    exact OrderedSet.ext (List.forall₂_eq_eq_eq ▸ same.imp fun x y each => Prod.ext each.1 (ih plain each.2))
  | unorderedSet | unorderedMap => cases plain

/-! ## What comes back -/

/-- With every string kept, everything comes back. -/
theorem passed_of_keeps (documented : yaml.Documented) (t : Ty ordered) {v : t.Value}
    (keeps : ∀ s ∈ t.strings v, yaml.Keeps s) : (t.cast yaml).passed yaml v = some v := by
  induction t with
  | integer low high => exact LexicalCast.passed_integer documented v
  | string => exact (LexicalCast.passed_string v).trans (keeps v (List.mem_singleton_self v))
  | vector t ih | list t ih =>
    refine (LexicalCast.passed_vector _ documented v).trans (Parts.passed_self _ fun x member => ih fun s inside => ?_)
    exact keeps s (List.mem_flatMap_of_mem member inside)
  | set t ih =>
    refine (LexicalCast.passed_set _ documented v).trans (Parts.passed_self _ fun x member => ih fun s inside => ?_)
    exact keeps s (List.mem_flatMap_of_mem member inside)
  | unorderedSet t ih =>
    refine (LexicalCast.passed_unorderedSet _ documented v).trans
      (Parts.passed_self _ fun x member => ih fun s inside => ?_)
    exact keeps s (List.mem_flatMap_of_mem member inside)
  | map t ih =>
    refine (LexicalCast.passed_map _ documented v).trans (Parts.passed_self _ fun x member => ?_)
    have value := ih fun s inside => keeps s (List.mem_flatMap_of_mem member inside)
    exact (LexicalCast.passedPair_eq_some_iff _).mpr ⟨rfl, value⟩
  | unorderedMap t ih =>
    refine (LexicalCast.passed_unorderedMap _ documented v).trans (Parts.passed_self _ fun x member => ?_)
    have value := ih fun s inside => keeps s (List.mem_flatMap_of_mem member inside)
    exact (LexicalCast.passedPair_eq_some_iff _).mpr ⟨rfl, value⟩

/-- What came back once comes back as it is. -/
theorem passed_again (documented : yaml.Documented) (t : Ty ordered) {v w : t.Value}
    (result : (t.cast yaml).passed yaml v = some w) : (t.cast yaml).passed yaml w = some w := by
  induction t with
  | integer low high => exact LexicalCast.passed_integer documented w
  | string =>
    obtain ⟨node, -, rfl⟩ := Option.map_eq_some_iff.mp ((LexicalCast.passed_string v).symm.trans result)
    exact (LexicalCast.passed_string _).trans (congrArg (Option.map yaml.emit) (documented.back node))
  | vector t ih | list t ih =>
    have parts := (LexicalCast.passed_vector _ documented v).symm.trans result
    exact (LexicalCast.passed_vector _ documented w).trans (Parts.passed_again _ (fun x y => ih) parts)
  | set t ih =>
    have parts := (LexicalCast.passed_set _ documented v).symm.trans result
    exact (LexicalCast.passed_set _ documented w).trans (Parts.passed_again _ (fun x y => ih) parts)
  | unorderedSet t ih =>
    have parts := (LexicalCast.passed_unorderedSet _ documented v).symm.trans result
    exact (LexicalCast.passed_unorderedSet _ documented w).trans (Parts.passed_again _ (fun x y => ih) parts)
  | map t ih =>
    have parts := (LexicalCast.passed_map _ documented v).symm.trans result
    exact (LexicalCast.passed_map _ documented w).trans
      (Parts.passed_again _ (fun x y => LexicalCast.passedPair_again _ fun x y => ih) parts)
  | unorderedMap t ih =>
    have parts := (LexicalCast.passed_unorderedMap _ documented v).symm.trans result
    exact (LexicalCast.passed_unorderedMap _ documented w).trans
      (Parts.passed_again _ (fun x y => LexicalCast.passedPair_again _ fun x y => ih) parts)

/-- Where the value under a key comes back, it comes back from the entry with that key. -/
theorem passed_entry {T V : Type} {cast : LexicalCast T} {parts : Parts V (Text × T)} {v w : V}
    (distinct : ((parts.elements v).map Prod.fst).Nodup) (result : parts.passed (cast.passedPair yaml) v = some w)
    {x y : Text × T} (old : x ∈ parts.elements v) (new : y ∈ parts.elements w) (key : y.1 = x.1) :
    cast.passed yaml x.2 = some y.2 := by
  obtain ⟨source, member, from_source⟩ := parts.mem_passed result new
  obtain ⟨same, value⟩ := (LexicalCast.passedPair_eq_some_iff cast).mp from_source
  have here : source = x := List.inj_on_of_nodup_map distinct member old (same.trans key)
  exact here ▸ value

theorem distinct_keys {T : Type} (v : OrderedSet (Prod.fst : Text × T → Text)) :
    (v.elements.map Prod.fst).Nodup :=
  List.pairwise_map.mpr (v.sorted.imp ne_of_lt)

/-- In a value that comes back equal to itself, every string is kept. -/
theorem keeps_of_passed (documented : yaml.Documented) (t : Ty ordered) {v w : t.Value}
    (result : (t.cast yaml).passed yaml v = some w) (same : t.same w v) : ∀ s ∈ t.strings v, yaml.Keeps s := by
  induction t with
  | integer => exact fun s inside => absurd inside List.not_mem_nil
  | string =>
    intro s inside
    obtain rfl := List.mem_singleton.mp inside
    obtain rfl : w = s := same
    exact (LexicalCast.passed_string w).symm.trans result
  | vector t ih | list t ih =>
    intro s inside
    obtain ⟨x, member, inside⟩ := List.mem_flatMap.mp inside
    have through := (Parts.passed_ofList v).symm.trans ((LexicalCast.passed_vector _ documented v).symm.trans result)
    obtain ⟨y, passed, same⟩ := exists_of_forall₂_both (mapM_eq_some_iff.mp through) same member
    exact ih passed same s inside
  | set t ih =>
    intro s inside
    obtain rfl := eq_of_same (.set t) rfl same
    obtain ⟨x, member, inside⟩ := List.mem_flatMap.mp inside
    have through := (LexicalCast.passed_set _ documented w).symm.trans result
    obtain ⟨_, -, passed⟩ := Parts.mem_passed _ through member
    exact ih (passed_again documented t passed) (same_refl t x) s inside
  | unorderedSet t ih =>
    intro s inside
    obtain ⟨x, member, inside⟩ := List.mem_flatMap.mp inside
    have through := (LexicalCast.passed_unorderedSet _ documented v).symm.trans result
    obtain ⟨y, present, rfl⟩ :=
      UnorderedSet.exists_of_keys (fun x present => ⟨x, same.2 x present, rfl⟩) same.1.ge member
    obtain ⟨_, -, passed⟩ := Parts.mem_passed _ through present
    exact ih (passed_again documented t passed) (same_refl t y) s inside
  | map t ih =>
    intro s inside
    obtain ⟨x, member, inside⟩ := List.mem_flatMap.mp inside
    have through := (LexicalCast.passed_map _ documented v).symm.trans result
    obtain ⟨y, new, key, same⟩ := exists_of_forall₂_right same member
    exact ih (passed_entry (distinct_keys v) through member new key) same s inside
  | unorderedMap t ih =>
    intro s inside
    obtain ⟨x, member, inside⟩ := List.mem_flatMap.mp inside
    have through := (LexicalCast.passed_unorderedMap _ documented v).symm.trans result
    have keys (y) (new : y ∈ w.elements) : ∃ x ∈ v.elements, x.1 = y.1 := by
      obtain ⟨x, old, key, -⟩ := same.2 y new
      exact ⟨x, old, key.symm⟩
    obtain ⟨y, new, key⟩ := UnorderedSet.exists_of_keys keys same.1.ge member
    obtain ⟨x', old, key', same⟩ := same.2 y new
    obtain rfl : x' = x := List.inj_on_of_nodup_map v.distinct old member (key'.symm.trans key)
    exact ih (passed_entry v.distinct through member new key) same s inside

theorem passed_container (documented : yaml.Documented) (t : Ty ordered) (container : t.container = true)
    (v : t.Value) : (t.cast yaml).passed yaml v = ((t.cast yaml).toStr v).bind (t.cast yaml).fromStr := by
  cases t with
  | integer | string => cases container
  | vector | list => exact passed_of_loads documented fun _ => rfl
  | set | unorderedSet | map | unorderedMap => exact passed_of_loads documented fun _ => Option.map_bind ..

end Ty

/-! ## A printer

Null, words and lists of them are printed as YAML has them, all other nodes in a
code of two characters a step that is run on a stack. -/

namespace Printer

/-- A scalar that is printed without quotes. -/
def word : Text → Bool
  | '-' :: digits => !digits.isEmpty && digits.all Char.isDigit
  | text => !text.isEmpty && (text.all Char.isDigit || text.all Char.isLower && text != "null".toList)

def leaf : Node → Option Text
  | .null => some ['~']
  | .scalar text => if word text then some text else none
  | .sequence _ | .map _ => none

def readLeaf (text : Text) : Node := if text = ['~'] then .null else .scalar text

def lines : Node → Option (List Text)
  | .sequence (first :: rest) => ((first :: rest).mapM leaf).map (List.map fun text => '-' :: ' ' :: text)
  | _ => none

def spell (text : Text) : Text := text.flatMap fun c => ['c', c]

mutual

def code : Node → Text
  | .null => ['n', '.']
  | .scalar text => spell text ++ ['s', '.']
  | .sequence items => ['[', '.'] ++ codeItems items
  | .map entries => ['m', '.'] ++ codeEntries entries

def codeItems : List Node → Text
  | [] => []
  | item :: rest => code item ++ [',', '.'] ++ codeItems rest

def codeEntries : List (Text × Node) → Text
  | [] => []
  | entry :: rest => code entry.2 ++ spell entry.1 ++ [':', '.'] ++ codeEntries rest

end

/-- One step on the nodes and the text that are done. -/
def exec : Char → Char → List Node × Text → List Node × Text
  | 'c', c, (stack, text) => (stack, text ++ [c])
  | 'n', _, (stack, text) => (.null :: stack, text)
  | 's', _, (stack, text) => (.scalar text :: stack, [])
  | '[', _, (stack, text) => (.sequence [] :: stack, text)
  | 'm', _, (stack, text) => (.map [] :: stack, text)
  | ',', _, (item :: .sequence items :: stack, text) => (.sequence (items ++ [item]) :: stack, text)
  | ':', _, (item :: .map entries :: stack, text) => (.map (entries ++ [(text, item)]) :: stack, [])
  | _, _, state => state

def run : Text → List Node × Text → List Node × Text
  | op :: c :: rest, state => run rest (exec op c state)
  | _, state => state

def emit (node : Node) : Text :=
  match leaf node, lines node with
  | some text, _ => text
  | none, some texts => ['\n'].intercalate texts
  | none, none => '!' :: code node

def load (text : Text) : Option Node :=
  match text with
  | [] => some .null
  | '!' :: rest => (run rest ([], [])).1.head?
  | '-' :: ' ' :: _ => some (.sequence ((text.splitOn '\n').map fun line => readLeaf (line.drop 2)))
  | text => some (readLeaf text)

def yaml : YamlCpp := ⟨emit, load, none⟩

theorem run_spell (text : Text) (rest : Text) (stack : List Node) (before : Text) :
    run (spell text ++ rest) (stack, before) = run rest (stack, before ++ text) := by
  induction text generalizing before with
  | nil => simp [spell]
  | cons c text ih =>
    have step : run (spell (c :: text) ++ rest) (stack, before) = run (spell text ++ rest) (stack, before ++ [c]) := rfl
    rw [step, ih, List.append_assoc]
    rfl

mutual

theorem run_code (node : Node) (rest : Text) (stack : List Node) :
    run (code node ++ rest) (stack, []) = run rest (node :: stack, []) := by
  cases node with
  | null => rfl
  | scalar text =>
    rw [code, List.append_assoc, run_spell]
    rfl
  | sequence items =>
    rw [code, List.append_assoc]
    exact run_codeItems items rest stack []
  | map entries =>
    rw [code, List.append_assoc]
    exact run_codeEntries entries rest stack []

theorem run_codeItems (items : List Node) (rest : Text) (stack before : List Node) :
    run (codeItems items ++ rest) (.sequence before :: stack, []) = run rest
      (.sequence (before ++ items) :: stack, []) := by
  cases items with
  | nil => rw [codeItems, List.append_nil, List.nil_append]
  | cons item later =>
    rw [codeItems, List.append_assoc, List.append_assoc, run_code item]
    refine (run_codeItems later rest stack (before ++ [item])).trans ?_
    rw [List.append_assoc]
    rfl

theorem run_codeEntries (entries : List (Text × Node)) (rest : Text) (stack : List Node) (before : List (Text × Node)) :
    run (codeEntries entries ++ rest) (.map before :: stack, []) = run rest
      (.map (before ++ entries) :: stack, []) := by
  cases entries with
  | nil => rw [codeEntries, List.append_nil, List.nil_append]
  | cons entry later =>
    obtain ⟨key, item⟩ := entry
    rw [codeEntries, List.append_assoc, List.append_assoc, List.append_assoc, run_code item, run_spell]
    refine (run_codeEntries later rest stack (before ++ [(key, item)])).trans ?_
    rw [List.append_assoc]
    rfl

end

theorem word_decimal (x : Int) : word (LexicalCast.decimal x) = true := by
  have digits (n : Nat) : (Nat.toDigits 10 n).all Char.isDigit = true :=
    List.all_eq_true.mpr fun c member => Nat.isDigit_of_mem_toDigits (by decide) (by decide) member
  have some_digit (n : Nat) : (Nat.toDigits 10 n).isEmpty = false := by simp [Nat.toDigits_ne_nil]
  unfold LexicalCast.decimal
  split
  · rw [word, some_digit, digits]
    rfl
  · unfold word
    split
    next rest same =>
      have sign := digits x.natAbs
      rw [same] at sign
      cases sign
    next => simp [digits, Nat.toDigits_ne_nil]

/-- The letters of words. -/
theorem of_mem_word {text : Text} (is_word : word text = true) {c : Char} (member : c ∈ text) :
    c = '-' ∨ c.isDigit = true ∨ c.isLower = true := by
  unfold word at is_word
  split at is_word
  · obtain rfl | later := List.mem_cons.mp member
    · exact .inl rfl
    · exact .inr (.inl (List.all_eq_true.mp (Bool.and_eq_true_iff.mp is_word).2 c later))
  · obtain digits | lower := Bool.or_eq_true_iff.mp (Bool.and_eq_true_iff.mp is_word).2
    · exact .inr (.inl (List.all_eq_true.mp digits c member))
    · exact .inr (.inr (List.all_eq_true.mp (Bool.and_eq_true_iff.mp lower).1 c member))

theorem readLeaf_leaf {node : Node} {text : Text} (is_leaf : leaf node = some text) : readLeaf text = node := by
  cases node with
  | null =>
    cases is_leaf
    rfl
  | scalar plain =>
    obtain ⟨is_word, same⟩ := Option.ite_none_right_eq_some.mp is_leaf
    obtain rfl := Option.some.inj same
    have other : plain ≠ ['~'] := by
      rintro rfl
      cases is_word
    exact if_neg other
  | sequence | map => cases is_leaf

theorem newline_leaf {node : Node} {text : Text} (is_leaf : leaf node = some text) : '\n' ∉ text := by
  cases node with
  | null =>
    cases is_leaf
    decide
  | scalar plain =>
    obtain ⟨is_word, same⟩ := Option.ite_none_right_eq_some.mp is_leaf
    obtain rfl := Option.some.inj same
    intro member
    obtain bad | bad | bad := of_mem_word is_word member <;> cases bad
  | sequence | map => cases is_leaf

theorem load_leaf {node : Node} {text : Text} (is_leaf : leaf node = some text) : load text = some node := by
  cases node with
  | null =>
    cases is_leaf
    rfl
  | scalar plain =>
    have read := readLeaf_leaf is_leaf
    obtain ⟨is_word, same⟩ := Option.ite_none_right_eq_some.mp is_leaf
    obtain rfl := Option.some.inj same
    unfold load
    split
    · cases is_word
    · obtain bad | bad | bad := of_mem_word is_word (List.mem_cons_self ..) <;> cases bad
    · obtain bad | bad | bad := of_mem_word is_word (List.mem_cons_of_mem _ (List.mem_cons_self ..)) <;> cases bad
    · exact congrArg some read
  | sequence | map => cases is_leaf

theorem load_lines {node : Node} {texts : List Text} (has_lines : lines node = some texts) :
    load (['\n'].intercalate texts) = some node := by
  obtain ⟨first, rest, rfl⟩ : ∃ first rest, node = .sequence (first :: rest) := by
    unfold lines at has_lines
    split at has_lines
    · exact ⟨_, _, rfl⟩
    · cases has_lines
  obtain ⟨leaves, each, rfl⟩ := Option.map_eq_some_iff.mp has_lines
  have related := mapM_eq_some_iff.mp each
  have unbroken : ∀ line ∈ leaves.map fun text => '-' :: ' ' :: text, '\n' ∉ line := by
    intro line member
    obtain ⟨text, present, rfl⟩ := List.mem_map.mp member
    obtain ⟨node, -, is_leaf⟩ := exists_of_forall₂_right related present
    simpa using newline_leaf is_leaf
  have read : first :: rest = leaves.map readLeaf :=
    List.forall₂_eq_eq_eq ▸ List.forall₂_map_right_iff.mpr (related.imp fun _ _ is_leaf => (readLeaf_leaf is_leaf).symm)
  obtain ⟨text, more, -, -, rfl⟩ := List.forall₂_cons_left_iff.mp related
  obtain ⟨tail, start⟩ : ∃ tail, ['\n'].intercalate ((text :: more).map fun text => '-' :: ' ' :: text) =
      '-' :: ' ' :: tail := by
    cases more with
    | nil => exact ⟨text, by simp⟩
    | cons second more => exact ⟨_, by rw [List.map_cons, List.map_cons, List.intercalate_cons_cons]; rfl⟩
  have found := List.splitOn_intercalate '\n' unbroken (List.map_eq_nil_iff.not.mpr (List.cons_ne_nil text more))
  rw [start, load, ← start, found, List.map_map, read]
  rfl

/-- The printer and its reader are as documented. -/
theorem documented : yaml.Documented where
  back node := by
    change load (emit node) = some node
    unfold emit
    split
    next is_leaf => exact load_leaf is_leaf
    next has_lines => exact load_lines has_lines
    next =>
      have coded := run_code node [] []
      rw [List.append_nil] at coded
      exact congrArg (fun state => state.1.head?) coded
  blank := rfl
  number x := by
    have is_leaf : leaf (.scalar (LexicalCast.decimal x)) = some (LexicalCast.decimal x) := if_pos (word_decimal x)
    have printed : emit (.scalar (LexicalCast.decimal x)) = LexicalCast.decimal x := by rw [emit, is_leaf]
    exact (congrArg (Option.map emit) (load_leaf is_leaf)).trans (congrArg some printed)

end Printer

namespace Ty

end Ty
end HpsSf.Config

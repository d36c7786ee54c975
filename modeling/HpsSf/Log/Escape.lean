import HpsSf.Log.Pattern

/-! What `%%` does in a pattern.

The branch for `%%` keeps one `%` and goes on at the other one, which then starts
a directive. `Read` says what is printed for a pattern with such escapes, and no
pattern with an escape prints what it should.
-/

set_option autoImplicit false

namespace HpsSf.Log
open Foundation (Text)

/-- One character of a literal, a directive, or `%%`. -/
inductive Part where
  | char (c : Char)
  | directive (letter : Letter) (fmt : Option Text)
  | escape
  deriving DecidableEq, Repr

def Part.text : Part → Text
  | char c => [c]
  | directive letter fmt => (Piece.directive letter fmt).text
  | escape => ['%', '%']

def written (parts : List Part) : Text := parts.flatMap Part.text

/-- The parts can stand side by side in a pattern. -/
def Aligned : List Part → Prop
  | [] => True
  | .char c :: rest => c ≠ '%' ∧ Aligned rest
  | .directive _ none :: rest => Ends (written rest) ∧ Aligned rest
  | .directive _ (some fmt) :: rest => '}' ∉ fmt ∧ Aligned rest
  | .escape :: rest => Aligned rest

/-- What the parts mean, for a meaning of the directives. -/
def meant (print : Letter → Text → Text) (parts : List Part) : Text :=
  parts.flatMap fun
    | .char c => [c]
    | .directive letter fmt => print letter (fmt.getD [])
    | .escape => ['%']

/-- What a directive prints for an event. -/
def printer (libc : Libc) (level : LogLevel) (event : LogEvent) (letter : Letter) (fmt : Text) : Text :=
  (letter.item fmt).format libc level event

/-- The pattern is accepted and prints what its parts mean, for every event and
whatever the unset buffer holds. -/
def Faithful (expand : Text → Nat → Text) (parts : List Part) : Prop :=
  (LogFormatter.init (written parts)).isError = false ∧
    ∀ leftover level event, (LogFormatter.init (written parts)).format ⟨expand, leftover⟩ level event =
      meant (printer ⟨expand, leftover⟩ level event) parts

/-- The pattern for a text: every `%` doubled. -/
def doubled (s : Text) : Text := s.flatMap fun c => if c = '%' then ['%', '%'] else [c]

/-- The parts of that pattern. -/
def literally (s : Text) : List Part := s.map fun c => if c = '%' then .escape else .char c

/-! ## What is printed -/

/-- What the scanner prints for the parts; `true` stands for a `%` that it still holds. -/
inductive Read (print : Letter → Text → Text) : Bool → List Part → Text → Prop where
  | nil : Read print false [] []
  | char {c : Char} {parts : List Part} {out : Text} : Read print false parts out →
      Read print false (.char c :: parts) (c :: out)
  | directive {letter : Letter} {fmt : Option Text} {parts : List Part} {out : Text} : Read print false parts out →
      Read print false (.directive letter fmt :: parts) (print letter (fmt.getD []) ++ out)
  | escape {parts : List Part} {out : Text} : Read print true parts out →
      Read print false (.escape :: parts) ('%' :: out)
  | run {parts : List Part} {out : Text} : Read print true parts out →
      Read print true (.escape :: parts) ('%' :: '%' :: out)
  | before {letter : Letter} {fmt : Option Text} {parts : List Part} {out : Text} :
      Read print false (.directive letter fmt :: parts) out →
      Read print true (.directive letter fmt :: parts) ('%' :: out)
  | letter {letter : Letter} {parts : List Part} {out : Text} : Read print false parts out →
      Read print true (.char letter.char :: parts) (print letter [] ++ out)
  | braces {letter : Letter} {fmt : Text} {inner parts : List Part} {out : Text} : '}' ∉ fmt →
      written inner = fmt ++ ['}'] → Read print false parts out →
      Read print true (.char letter.char :: .char '{' :: (inner ++ parts)) (print letter fmt ++ out)

theorem written_cons (part : Part) (parts : List Part) : written (part :: parts) = part.text ++ written parts := rfl

theorem meant_append (print : Letter → Text → Text) (first second : List Part) :
    meant print (first ++ second) = meant print first ++ meant print second :=
  List.flatMap_append

theorem Aligned.right (first : List Part) {second : List Part} (aligned : Aligned (first ++ second)) : Aligned second := by
  induction first with
  | nil => exact aligned
  | cons part first ih =>
    apply ih
    cases part with
    | char c => exact aligned.2
    | directive letter fmt => cases fmt <;> exact aligned.2
    | escape => exact aligned

/-- What the items of the entries print. -/
def printed (libc : Libc) (level : LogLevel) (event : LogEvent) (entries : List Entry) : Text :=
  entries.flatMap fun entry => entry.item.1.format libc level event

section Printed

variable (libc : Libc) (level : LogLevel) (event : LogEvent)

theorem format_init (pattern : Text) :
    (LogFormatter.init pattern).format libc level event = printed libc level event (entries [] pattern).1 := by
  rw [init_eq, LogFormatter.format, printed, List.flatMap_map]

theorem printed_append (first second : List Entry) :
    printed libc level event (first ++ second) = printed libc level event first ++ printed libc level event second :=
  List.flatMap_append

theorem printed_flush (nstr : Text) : printed libc level event (flush nstr) = nstr := by
  cases nstr with
  | nil => rfl
  | cons c rest => simp [printed, flush, FormatItem.format]

theorem printed_directive (nstr fmt : Text) (letter : Letter) (later : List Entry) :
    printed libc level event (flush nstr ++ ⟨[letter.char], fmt, 1⟩ :: later) =
      nstr ++ printer libc level event letter fmt ++ printed libc level event later := by
  rw [printed_append, printed_flush, List.append_assoc]
  simp [printed, printer]

end Printed

theorem accepted_flush (nstr : Text) : ∀ entry ∈ flush nstr, entry.item.2 = false := by
  intro entry member
  unfold flush at member
  split at member
  · cases member
  · rw [List.mem_singleton.mp member]
    rfl

theorem accepted_directive {nstr fmt str : Text} {later : List Entry} {error : Bool} :
    Accepted (flush nstr ++ ⟨str, fmt, 1⟩ :: later, error) ↔
      (∃ letter : Letter, str = [letter.char]) ∧ Accepted (later, error) := by
  constructor
  · rintro ⟨fine, all⟩
    exact ⟨accepted_letter (all _ (List.mem_append_right _ (List.mem_cons_self ..))), fine,
      fun entry member => all entry (List.mem_append_right _ (List.mem_cons_of_mem _ member))⟩
  · rintro ⟨⟨letter, rfl⟩, fine, all⟩
    refine ⟨fine, fun entry member => ?_⟩
    obtain before | here := List.mem_append.mp member
    · exact accepted_flush nstr entry before
    · obtain rfl | later := List.mem_cons.mp here
      · rw [Entry.item_letter]
      · exact all entry later

/-- A genuine directive is read as it is. -/
theorem entries_part (nstr : Text) {letter : Letter} {fmt : Option Text} {parts : List Part}
    (aligned : Aligned (.directive letter fmt :: parts)) :
    entries nstr (written (.directive letter fmt :: parts)) =
      (flush nstr ++ ⟨[letter.char], fmt.getD [], 1⟩ :: (entries [] (written parts)).1,
        (entries [] (written parts)).2) := by
  have single (ahead : Text) : (letter.char :: ahead).head? ≠ some '%' := by simp [letter.char_ne_percent]
  rw [written_cons]
  cases fmt with
  | none => exact entries_directive (single _) (directive_bare aligned.1)
  | some fmt =>
    have shape : (Part.directive letter (some fmt)).text ++ written parts =
        '%' :: letter.char :: '{' :: (fmt ++ '}' :: written parts) := by simp [Part.text, Piece.text]
    rw [shape]
    exact entries_directive (single _) (directive_braces aligned.1)

/-! ## Patterns without escapes -/

theorem faithful_entries (libc : Libc) (level : LogLevel) (event : LogEvent) {parts : List Part} (nstr : Text)
    (aligned : Aligned parts) (free : .escape ∉ parts) :
    Accepted (entries nstr (written parts)) ∧ printed libc level event (entries nstr (written parts)).1 =
      nstr ++ meant (printer libc level event) parts := by
  induction parts generalizing nstr with
  | nil =>
    rw [written, List.flatMap_nil, entries_nil]
    exact ⟨⟨rfl, accepted_flush nstr⟩, by simp [printed_flush, meant]⟩
  | cons part parts ih =>
    have rest : .escape ∉ parts := fun member => free (List.mem_cons_of_mem _ member)
    cases part with
    | char c =>
      obtain ⟨different, aligned⟩ := aligned
      obtain ⟨accepted, same⟩ := ih (nstr ++ [c]) aligned rest
      rw [written_cons, Part.text, List.singleton_append, entries_literal different]
      exact ⟨accepted, by rw [same, List.append_assoc]; rfl⟩
    | directive letter fmt =>
      obtain ⟨accepted, same⟩ := ih [] (Aligned.right [.directive letter fmt] aligned) rest
      rw [entries_part nstr aligned]
      refine ⟨accepted_directive.mpr ⟨⟨letter, rfl⟩, accepted⟩, ?_⟩
      rw [printed_directive, same, List.append_assoc]
      rfl
    | escape => exact absurd (List.mem_cons_self ..) free

/-! ## Patterns with escapes -/

theorem split_brace {text rest fmt ahead : Text} (open_ : '}' ∉ text) (same : text ++ rest = fmt ++ '}' :: ahead) :
    ∃ behind, fmt = text ++ behind ∧ rest = behind ++ '}' :: ahead := by
  obtain ⟨behind, first, second⟩ | ⟨behind, first, second⟩ := List.append_eq_append_iff.mp same
  · exact ⟨behind, first, second⟩
  · cases behind with
    | nil => exact ⟨[], by simpa using first.symm, by simpa using second.symm⟩
    | cons c behind =>
      obtain ⟨rfl, -⟩ := List.cons.inj second
      exact absurd (first ▸ List.mem_append_right _ (List.mem_cons_self ..)) open_

/-- The first closing brace of a pattern ends a part. -/
theorem swallow {parts : List Part} {fmt rest : Text} (aligned : Aligned parts) (open_ : '}' ∉ fmt)
    (same : written parts = fmt ++ '}' :: rest) :
    ∃ inner after, parts = inner ++ after ∧ written inner = fmt ++ ['}'] ∧ written after = rest := by
  induction parts generalizing fmt with
  | nil => cases fmt <;> cases same
  | cons part parts ih =>
    have behind : Aligned parts := Aligned.right [part] aligned
    rw [written_cons] at same
    by_cases closes : ∃ text, '}' ∉ text ∧ part.text = text ++ ['}']
    · -- This part holds the brace.
      obtain ⟨text, free, ends⟩ := closes
      rw [ends, List.append_assoc, List.singleton_append] at same
      obtain ⟨more, rfl, second⟩ := split_brace free same
      cases more with
      | nil =>
        refine ⟨[part], parts, rfl, ?_, (List.cons.inj second).2⟩
        rw [written_cons, ends, List.append_nil]
        exact List.append_nil _
      | cons c more =>
        obtain ⟨rfl, -⟩ := List.cons.inj second
        exact absurd (List.mem_append_right _ (List.mem_cons_self ..)) open_
    · have free : '}' ∉ part.text := by
        cases part with
        | char c =>
          intro member
          have brace : c = '}' := (List.mem_singleton.mp member).symm
          exact closes ⟨[], List.not_mem_nil, by rw [brace]; rfl⟩
        | directive letter fmt =>
          cases fmt with
          | none => cases letter <;> decide
          | some fmt =>
            refine absurd ⟨'%' :: letter.char :: '{' :: fmt, ?_, rfl⟩ closes
            have notBrace : letter.char ≠ '}' := by cases letter <;> decide
            simp [aligned.1, notBrace.symm]
        | escape => decide
      obtain ⟨more, rfl, second⟩ := split_brace free same
      -- The brace is in a later part.
      obtain ⟨inner, after, rfl, text, last⟩ := ih behind (fun member => open_ (List.mem_append_right _ member)) second
      exact ⟨part :: inner, after, rfl, by rw [written_cons, text, List.append_assoc], last⟩

section Reading

variable (libc : Libc) (level : LogLevel) (event : LogEvent)

/-- An accepted pattern is read in one of the ways of `Read`, by induction on its
length: from the start of a part, and with a `%` held. -/
theorem read_of_accepted (length : Nat) : ∀ parts : List Part, parts.length = length → Aligned parts → ∀ nstr,
    (Accepted (entries nstr (written parts)) → ∃ out, Read (printer libc level event) false parts out ∧
      printed libc level event (entries nstr (written parts)).1 = nstr ++ out) ∧
    (Accepted (entries nstr ('%' :: written parts)) → ∃ out, Read (printer libc level event) true parts out ∧
      printed libc level event (entries nstr ('%' :: written parts)).1 = nstr ++ out) := by
  induction length using Nat.strongRecOn with
  | ind length ih =>
  intro parts size aligned
  have plainly : ∀ nstr, Accepted (entries nstr (written parts)) →
      ∃ out, Read (printer libc level event) false parts out ∧
        printed libc level event (entries nstr (written parts)).1 = nstr ++ out := by
    intro nstr accepted
    cases parts with
    | nil =>
      refine ⟨[], .nil, ?_⟩
      rw [written, List.flatMap_nil, entries_nil, printed_flush, List.append_nil]
    | cons part parts =>
      have shorter : parts.length < length := by simp [← size]
      have behind : Aligned parts := Aligned.right [part] aligned
      have later := ih parts.length shorter parts rfl behind
      cases part with
      | char c =>
        rw [written_cons, Part.text, List.singleton_append, entries_literal aligned.1] at accepted ⊢
        obtain ⟨out, read, same⟩ := (later _).1 accepted
        exact ⟨c :: out, .char read, by rw [same, List.append_assoc]; rfl⟩
      | directive letter fmt =>
        rw [entries_part nstr aligned] at accepted ⊢
        obtain ⟨out, read, same⟩ := (later []).1 (accepted_directive.mp accepted).2
        refine ⟨_, .directive read, ?_⟩
        rw [printed_directive, same, List.append_assoc]
        rfl
      | escape =>
        rw [written_cons, Part.text, List.cons_append, List.singleton_append, entries_escape rfl] at accepted ⊢
        obtain ⟨out, read, same⟩ := (later _).2 accepted
        exact ⟨'%' :: out, .escape read, by rw [same, List.append_assoc]; rfl⟩
  refine fun nstr => ⟨plainly nstr, fun accepted => ?_⟩
  cases parts with
  | nil =>
    -- A `%` at the very end has no letter.
    have last : directive [] = some ⟨[], [], []⟩ := rfl
    rw [written, List.flatMap_nil, entries_directive (by simp) last] at accepted
    obtain ⟨⟨letter, impossible⟩, -⟩ := accepted_directive.mp accepted
    cases impossible
  | cons part parts =>
    have shorter : parts.length < length := by simp [← size]
    have behind : Aligned parts := Aligned.right [part] aligned
    cases part with
    | char c =>
      have single : (written (.char c :: parts)).head? ≠ some '%' := by
        simpa [written_cons, Part.text] using aligned.1
      cases closed : directive (written (.char c :: parts)) with
      | none =>
        rw [entries_unclosed single closed] at accepted
        cases accepted.1
      | some found =>
        rw [entries_directive single closed] at accepted ⊢
        obtain ⟨str, fmt, rest⟩ := found
        obtain ⟨⟨letter, rfl⟩, accepted⟩ := accepted_directive.mp accepted
        rw [printed_directive]
        -- The held `%` takes the character for its letter, alone or with a format.
        obtain ⟨text, rfl, -⟩ | ⟨text, open_⟩ := directive_parts closed
        · obtain ⟨rfl, left⟩ : c = letter.char ∧ written parts = rest := List.cons.inj text
          obtain rfl : rest = written parts := left.symm
          obtain ⟨out, read, same⟩ := (ih parts.length shorter parts rfl behind []).1 accepted
          refine ⟨_, .letter read, ?_⟩
          rw [same, List.append_assoc]
          rfl
        · obtain ⟨rfl, opening⟩ : c = letter.char ∧ written parts = '{' :: (fmt ++ '}' :: rest) := List.cons.inj text
          -- Only a literal can begin with the opening brace.
          obtain ⟨brace, parts, rfl, opened⟩ : ∃ brace after, parts = .char brace :: after ∧ brace = '{' := by
            cases parts with
            | nil => cases opening
            | cons part parts =>
              rw [written_cons] at opening
              cases part with
              | char brace => exact ⟨brace, parts, rfl, (List.cons.inj opening).1⟩
              | directive letter fmt => cases fmt <;> cases opening
              | escape => cases opening
          subst opened
          have inside : written parts = fmt ++ '}' :: rest := (List.cons.inj opening).2
          obtain ⟨inner, after, rfl, format, rfl⟩ := swallow behind.2 open_ inside
          have size : after.length < length := by
            simp at shorter
            omega
          obtain ⟨out, read, same⟩ := (ih after.length size after rfl (behind.2.right inner) []).1 accepted
          refine ⟨_, .braces open_ format read, ?_⟩
          rw [same, List.append_assoc]
          rfl
    | directive letter fmt =>
      -- The held `%` and the one of the directive make an escape; then the directive is read as it is.
      have second : (written (.directive letter fmt :: parts)).head? = some '%' := by cases fmt <;> rfl
      rw [entries_escape second] at accepted ⊢
      obtain ⟨out, read, same⟩ := plainly _ accepted
      exact ⟨'%' :: out, .before read, by rw [same, List.append_assoc]; rfl⟩
    | escape =>
      have shape : '%' :: written (.escape :: parts) = '%' :: '%' :: '%' :: written parts := rfl
      rw [shape, entries_escape rfl, entries_escape rfl] at accepted ⊢
      obtain ⟨out, read, same⟩ := (ih parts.length shorter parts rfl behind _).2 accepted
      exact ⟨'%' :: '%' :: out, .run read, by rw [same]; simp⟩

end Reading

end HpsSf.Log

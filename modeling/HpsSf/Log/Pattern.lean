import HpsSf.Log.Scanner

/-! The patterns that the formatter accepts, as sequences of literals and directives. -/

set_option autoImplicit false

namespace HpsSf.Log
open Foundation (Text)

/-- A maximal literal run, `%k`, or `%k{fmt}`. -/
inductive Piece where
  | literal (text : Text)
  | directive (letter : Letter) (fmt : Option Text)
  deriving DecidableEq, Repr

namespace Piece

def text : Piece → Text
  | literal text => text
  | directive letter none => ['%', letter.char]
  | directive letter (some fmt) => '%' :: letter.char :: '{' :: fmt ++ ['}']

def item : Piece → FormatItem
  | literal text => .string text
  | directive letter fmt => letter.item (fmt.getD [])

/-- The element of `vec` for a piece. -/
def entry : Piece → Entry
  | literal text => ⟨text, [], 0⟩
  | directive letter fmt => ⟨[letter.char], fmt.getD [], 1⟩

end Piece

/-- The pattern that the pieces spell. -/
def spelled (pieces : List Piece) : Text := pieces.flatMap Piece.text

/-- A directive without braces can end before this text. -/
def Ends (ahead : Text) : Prop := ∀ c, ahead.head? = some c → c.isAlpha = false ∧ c ≠ '{' ∧ c ≠ '}'

def WellFormed : List Piece → Prop
  | [] => True
  | .literal text :: rest => text ≠ [] ∧ '%' ∉ text ∧ (∀ next, rest.head? ≠ some (.literal next)) ∧ WellFormed rest
  | .directive _ none :: rest => Ends (spelled rest) ∧ WellFormed rest
  | .directive _ (some fmt) :: rest => '}' ∉ fmt ∧ WellFormed rest

/-! ## Letters -/

theorem Letter.plain_char (letter : Letter) : plain letter.char = true := by
  cases letter <;> decide

@[simp] theorem findLetter_char (letter : Letter) : findLetter [letter.char] = some letter := by
  cases letter <;> decide

theorem findLetter_some {str : Text} {letter : Letter} (found : findLetter str = some letter) :
    str = [letter.char] := by
  have := List.find?_some found
  simpa [eq_comm] using this

@[simp] theorem Entry.item_literal (text : Text) : (Entry.mk text [] 0).item = (.string text, false) := by
  rw [Entry.item, if_pos rfl]

@[simp] theorem Entry.item_letter (letter : Letter) (fmt : Text) :
    (Entry.mk [letter.char] fmt 1).item = (letter.item fmt, false) := by
  rw [Entry.item, if_neg Nat.one_ne_zero, findLetter_char]

@[simp] theorem Piece.entry_item (piece : Piece) : piece.entry.item = (piece.item, false) := by
  cases piece with
  | literal text => exact Entry.item_literal text
  | directive letter fmt => exact Entry.item_letter letter (fmt.getD [])

/-! ## One directive -/

theorem Ends.stop {c : Char} {rest : Text} (ends : Ends (c :: rest)) : plain c = false ∧ c ≠ '{' := by
  obtain ⟨letter, brace, closing⟩ := ends c rfl
  exact ⟨by simp [plain, letter, closing], brace⟩

theorem takeWhile_letter (letter : Letter) {c : Char} (rest : Text) (stop : plain c = false) :
    (letter.char :: c :: rest).takeWhile plain = [letter.char] ∧ (letter.char :: c :: rest).dropWhile plain = c :: rest := by
  simp [letter.plain_char, stop]

theorem directive_bare {letter : Letter} {ahead : Text} (ends : Ends ahead) :
    directive (letter.char :: ahead) = some ⟨[letter.char], [], ahead⟩ := by
  cases ahead with
  | nil => simp [directive, letter.plain_char]
  | cons c rest =>
    obtain ⟨stop, brace⟩ := ends.stop
    obtain ⟨taken, left⟩ := takeWhile_letter letter rest stop
    simp only [directive, taken, left, if_neg brace]

theorem span_brace {fmt : Text} (ahead : Text) (inside : '}' ∉ fmt) :
    (fmt ++ '}' :: ahead).takeWhile (· ≠ '}') = fmt ∧ (fmt ++ '}' :: ahead).dropWhile (· ≠ '}') = '}' :: ahead := by
  have all : ∀ c ∈ fmt, decide (c ≠ '}') = true := fun c member =>
    decide_eq_true fun same => inside (same ▸ member)
  rw [List.takeWhile_append_of_pos all, List.dropWhile_append_of_pos all]
  simp

theorem directive_braces {letter : Letter} {fmt ahead : Text} (inside : '}' ∉ fmt) :
    directive (letter.char :: '{' :: (fmt ++ '}' :: ahead)) = some ⟨[letter.char], fmt, ahead⟩ := by
  obtain ⟨taken, left⟩ :=
    takeWhile_letter letter (fmt ++ '}' :: ahead) (show plain '{' = false by decide)
  obtain ⟨format, closing⟩ := span_brace ahead inside
  simp only [directive, taken, left, if_true, format, closing]

/-- What a directive was read from. -/
theorem directive_parts {ahead : Text} {found : Directive} (closed : directive ahead = some found) :
    (ahead = found.str ++ found.rest ∧ found.fmt = [] ∧ Ends found.rest) ∨
      (ahead = found.str ++ '{' :: (found.fmt ++ '}' :: found.rest) ∧ '}' ∉ found.fmt) := by
  have reading := directive_reading ahead
  rw [closed] at reading
  cases reading with
  | last passed => exact Or.inl ⟨(List.append_nil _).symm, rfl, fun c first => by cases first⟩
  | @bare letters rest c passed stop brace =>
    refine Or.inl ⟨rfl, rfl, ?_⟩
    intro x first
    cases first
    have other : c.isAlpha = false ∧ c ≠ '}' := by simpa [plain] using stop
    exact ⟨other.1, brace, other.2⟩
  | braces passed open_ => exact Or.inr ⟨rfl, open_⟩

/-! ## Well-formed patterns are read as they are -/

theorem entries_append {text nstr ahead : Text} (literal : '%' ∉ text) :
    entries nstr (text ++ ahead) = entries (nstr ++ text) ahead := by
  induction text generalizing nstr with
  | nil => rw [List.nil_append, List.append_nil]
  | cons c text ih =>
    have different : c ≠ '%' := fun same => literal (same ▸ List.mem_cons_self ..)
    rw [List.cons_append, entries_literal different, ih fun member => literal (List.mem_cons_of_mem _ member),
      List.append_assoc, List.singleton_append]

theorem Letter.char_ne_percent (letter : Letter) : letter.char ≠ '%' := by
  cases letter <;> decide

theorem entries_of_pieces {pieces : List Piece} {nstr : Text} (formed : WellFormed pieces)
    (apart : nstr = [] ∨ ∀ text, pieces.head? ≠ some (.literal text)) :
    entries nstr (spelled pieces) = (flush nstr ++ pieces.map Piece.entry, false) := by
  induction pieces generalizing nstr with
  | nil =>
    rw [spelled, List.flatMap_nil, entries_nil]
    simp
  | cons piece rest ih =>
    rw [spelled, List.flatMap_cons, ← spelled]
    cases piece with
    | literal text =>
      obtain ⟨nonempty, literal, next, later⟩ := formed
      have fresh : nstr = [] := apart.resolve_right fun other => other text rfl
      subst fresh
      rw [Piece.text, entries_append literal, List.nil_append, ih later (Or.inr next)]
      simp [flush, nonempty, Piece.entry]
    | directive letter fmt =>
      have single (ahead : Text) : (letter.char :: ahead).head? ≠ some '%' := by simp [letter.char_ne_percent]
      cases fmt with
      | none =>
        obtain ⟨ends, later⟩ := formed
        rw [Piece.text, List.cons_append, List.singleton_append,
          entries_directive (single _) (directive_bare ends), ih later (Or.inl rfl)]
        rfl
      | some fmt =>
        obtain ⟨inside, later⟩ := formed
        have shape : (Piece.directive letter (some fmt)).text ++ spelled rest =
            '%' :: letter.char :: '{' :: (fmt ++ '}' :: spelled rest) := by simp [Piece.text]
        rw [shape, entries_directive (single _) (directive_braces inside), ih later (Or.inl rfl)]
        rfl

/-! ## Accepted patterns are well-formed -/

/-- No entry sets `m_error`. -/
def Accepted (result : List Entry × Bool) : Prop :=
  result.2 = false ∧ ∀ entry ∈ result.1, entry.item.2 = false

theorem isError_iff (pattern : Text) : (LogFormatter.init pattern).isError = false ↔ Accepted (entries [] pattern) := by
  rw [init_eq]
  simp [Accepted]

/-- An accepted directive has a registered letter. -/
theorem accepted_letter {str fmt : Text} (accepted : (Entry.mk str fmt 1).item.2 = false) :
    ∃ letter : Letter, str = [letter.char] := by
  cases found : findLetter str with
  | none => simp [Entry.item, found] at accepted
  | some letter => exact ⟨letter, findLetter_some found⟩

/-- The run before a directive, when there is one. -/
def pending (nstr : Text) (pieces : List Piece) : List Piece :=
  if nstr.isEmpty then pieces else .literal nstr :: pieces

theorem spelled_pending (nstr : Text) (pieces : List Piece) : spelled (pending nstr pieces) = nstr ++ spelled pieces := by
  unfold pending
  split
  next empty => rw [List.isEmpty_iff.mp empty, List.nil_append]
  · rfl

theorem wellFormed_pending {nstr : Text} {pieces : List Piece} (literal : '%' ∉ nstr)
    (apart : ∀ text, pieces.head? ≠ some (.literal text)) (formed : WellFormed pieces) :
    WellFormed (pending nstr pieces) := by
  unfold pending
  split
  · exact formed
  next nonempty => exact ⟨fun empty => nonempty (List.isEmpty_iff.mpr empty), literal, apart, formed⟩

theorem pieces_of_entries {nstr ahead : Text} (apart : ¬ ['%', '%'] <:+: ahead) (literal : '%' ∉ nstr)
    (accepted : Accepted (entries nstr ahead)) :
    ∃ pieces, WellFormed pieces ∧ spelled pieces = nstr ++ ahead := by
  induction nstr, ahead using entries.induct with
  | case1 nstr =>
    exact ⟨pending nstr [], wellFormed_pending literal (fun _ first => by cases first) trivial, spelled_pending nstr []⟩
  | case2 nstr c ahead other ih =>
    rw [entries_literal other] at accepted
    obtain ⟨pieces, formed, same⟩ := ih (fun inside => apart (inside.trans (List.suffix_cons ..).isInfix))
      (by simpa [literal] using Ne.symm other) accepted
    exact ⟨pieces, formed, by rw [same, List.append_assoc, List.singleton_append]⟩
  | case3 nstr c ahead percent escape ih =>
    obtain rfl : c = '%' := not_not.mp percent
    obtain ⟨rest, rfl⟩ : ∃ rest, ahead = '%' :: rest := List.head?_eq_some_iff.mp escape
    exact absurd (List.prefix_append ['%', '%'] rest).isInfix apart
  | case4 nstr c ahead percent single found closed shorter ih =>
    obtain rfl : c = '%' := not_not.mp percent
    rw [entries_directive single closed] at accepted
    obtain ⟨fine, all⟩ := accepted
    obtain ⟨letter, str⟩ := accepted_letter (all _ (List.mem_append_right _ (List.mem_cons_self ..)))
    have ended : found.rest <:+ ahead := by
      obtain ⟨text, -⟩ | ⟨text, -⟩ := directive_parts closed
      · exact ⟨_, text.symm⟩
      · exact ⟨found.str ++ '{' :: (found.fmt ++ ['}']), by simp [text]⟩
    obtain ⟨pieces, formed, same⟩ := ih
      (fun inside => apart (inside.trans (ended.trans (List.suffix_cons ..)).isInfix)) List.not_mem_nil
      ⟨fine, fun entry member => all entry (List.mem_append_right _ (List.mem_cons_of_mem _ member))⟩
    rw [List.nil_append] at same
    obtain ⟨text, -, ends⟩ | ⟨text, inside⟩ := directive_parts closed
    · refine ⟨pending nstr (.directive letter none :: pieces),
        wellFormed_pending literal (fun _ first => by cases first) ⟨same ▸ ends, formed⟩, ?_⟩
      rw [spelled_pending, text, str, ← same]
      rfl
    · refine ⟨pending nstr (.directive letter (some found.fmt) :: pieces),
        wellFormed_pending literal (fun _ first => by cases first) ⟨inside, formed⟩, ?_⟩
      rw [spelled_pending, spelled, List.flatMap_cons, ← spelled, same]
      conv => rhs; rw [text, str]
      simp [Piece.text]
  | case5 nstr c ahead percent single unclosed ih =>
    obtain rfl : c = '%' := not_not.mp percent
    rw [entries_unclosed single unclosed] at accepted
    cases accepted.1

/-- Without two `%` side by side, the accepted patterns are exactly the well-formed
ones, and the items are the pieces. -/
theorem accepts_iff (pattern : Text) (apart : ¬ ['%', '%'] <:+: pattern) :
    ((LogFormatter.init pattern).isError = false ↔ ∃ pieces, WellFormed pieces ∧ spelled pieces = pattern) ∧
      ∀ pieces, WellFormed pieces → spelled pieces = pattern →
        (LogFormatter.init pattern).items = pieces.map Piece.item := by
  have read {pieces : List Piece} (formed : WellFormed pieces) (same : spelled pieces = pattern) :
      entries [] pattern = (pieces.map Piece.entry, false) := by
    rw [← same, entries_of_pieces formed (Or.inl rfl)]
    rfl
  refine ⟨⟨fun fine => ?_, ?_⟩, ?_⟩
  · simpa using pieces_of_entries apart List.not_mem_nil ((isError_iff pattern).mp fine)
  · rintro ⟨pieces, formed, same⟩
    rw [isError_iff, read formed same]
    exact ⟨rfl, by simp⟩
  · intro pieces formed same
    rw [init_eq, read formed same]
    simp

/-- `[%p] %d{%H}%n` has every kind of piece. -/
theorem accepts_iff_short :
    let pattern : Text := ['[', '%', 'p', ']', ' ', '%', 'd', '{', '%', 'H', '}', '%', 'n']
    (LogFormatter.init pattern).isError = false ∧
      (LogFormatter.init pattern).items =
        [.string ['['], .level, .string [']', ' '], .dateTime ['%', 'H'], .newLine] := by
  intro pattern
  obtain ⟨accepted, items⟩ := accepts_iff pattern (by decide)
  have formed : WellFormed [.literal ['['], .directive .p none, .literal [']', ' '],
      .directive .d (some ['%', 'H']), .directive .n none] := by
    simp [WellFormed, Ends, spelled, Piece.text]
  exact ⟨accepted.mpr ⟨_, formed, rfl⟩, items _ formed rfl⟩

end HpsSf.Log

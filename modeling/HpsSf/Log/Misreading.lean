import HpsSf.Log.Escape
import Mathlib.Data.List.Count

/-! No pattern with an escape prints what it should.

What is printed and what is meant agree up to the first escape. Behind it either
a `%` too many has been printed, or a letter of the text has been taken for a
directive. Both show at that place for an event whose fields are all `0`, except
when the text is swallowed as the format of a `%d`, which needs the behaviour of
`strftime`.
-/

set_option autoImplicit false

namespace HpsSf.Log
open Foundation (Text)

/-- `strftime` copies ordinary characters and turns `%%` into `%`. A conversion by
the year or a registered letter prints something: a number, a name in capitals,
white space, or the conversion itself where it is unknown. -/
structure Documented (expand : Text → Nat → Text) : Prop where
  nothing (time : Nat) : expand [] time = []
  ordinary {c : Char} (rest : Text) (time : Nat) : c ≠ '%' → c ≠ '\x00' → expand (c :: rest) time = c :: expand rest time
  percent (rest : Text) (time : Nat) : expand ('%' :: '%' :: rest) time = '%' :: expand rest time
  conversion {k : Char} (rest : Text) (time : Nat) : (k = 'Y' ∨ ∃ letter : Letter, k = letter.char) →
    ∃ x out, expand ('%' :: k :: rest) time = x :: out ∧ x ≠ 'd' ∧ x ≠ '{' ∧ x ≠ '\x00'

section Differences

variable {print : Letter → Text → Text}

@[simp] theorem meant_char (c : Char) (parts : List Part) : meant print (.char c :: parts) = c :: meant print parts := rfl

@[simp] theorem meant_directive (letter : Letter) (fmt : Option Text) (parts : List Part) :
    meant print (.directive letter fmt :: parts) = print letter (fmt.getD []) ++ meant print parts := rfl

@[simp] theorem meant_escape (parts : List Part) : meant print (.escape :: parts) = '%' :: meant print parts := rfl

/-! ## One `%` too many -/

/-- Leading `%` move past any text that both sides have. -/
theorem percent_cancel {n : Nat} (text : Text) {first second : Text}
    (same : List.replicate (n + 1) '%' ++ (text ++ first) = text ++ second) :
    List.replicate (n + 1) '%' ++ first = second := by
  induction text with
  | nil => exact same
  | cons c text ih =>
    apply ih
    rw [List.replicate_succ, List.cons_append, List.cons_append, List.cons_append] at same
    obtain ⟨rfl, rest⟩ := List.cons.inj same
    rw [← rest, List.replicate_succ']
    simp

/-- With a `%` too many in front, the rest cannot make up for it. -/
theorem Read.too_many {held : Bool} {parts : List Part} {out : Text} (read : Read print held parts out) (n : Nat) :
    List.replicate (n + 1) '%' ++ out ≠ meant print parts := by
  have shift (n : Nat) (out : Text) : List.replicate (n + 1) '%' ++ out = List.replicate n '%' ++ '%' :: out := by
    rw [List.replicate_succ', List.append_assoc, List.singleton_append]
  induction read generalizing n with
  | nil => exact List.cons_ne_nil _ _
  | @char c parts out _ ih =>
    intro same
    exact ih n (percent_cancel [c] same)
  | directive _ ih =>
    intro same
    exact ih n (percent_cancel _ same)
  | escape _ ih =>
    intro same
    exact ih n (percent_cancel ['%'] same)
  | @run parts out _ ih =>
    intro same
    have rest : List.replicate n '%' ++ '%' :: '%' :: out = meant print parts := (List.cons.inj same).2
    rw [← shift, ← shift] at rest
    exact ih (n + 1) rest
  | before _ ih =>
    intro same
    rw [← shift] at same
    exact ih (n + 1) same
  | @letter letter parts out _ ih =>
    intro same
    exact letter.char_ne_percent (List.cons.inj same).1.symm
  | @braces letter fmt inner parts out _ _ _ ih =>
    intro same
    exact letter.char_ne_percent (List.cons.inj same).1.symm

/-! ## Text without `%` in front -/

theorem first_percent (text : Text) {first second : Text} (nonempty : text ≠ []) (free : '%' ∉ text) (shared : Text) :
    shared ++ '%' :: first ≠ text ++ (shared ++ '%' :: second) := by
  induction shared generalizing text with
  | nil =>
    intro same
    cases text with
    | nil => exact nonempty rfl
    | cons c text =>
      obtain ⟨rfl, -⟩ := List.cons.inj same
      exact free (List.mem_cons_self ..)
  | cons c shared ih =>
    intro same
    cases text with
    | nil => exact nonempty rfl
    | cons d text =>
      obtain ⟨rfl, rest⟩ := List.cons.inj same
      -- The character moves from the front of the text to its end.
      refine ih (text ++ [c]) (by simp) ?_ (by simpa using rest)
      intro member
      obtain before | last := List.mem_append.mp member
      · exact free (List.mem_cons_of_mem _ before)
      · exact free (List.mem_singleton.mp last ▸ List.mem_cons_self ..)

/-- What is printed is what is meant, or both go the same way up to some `%`. -/
theorem Read.shared {held : Bool} {parts : List Part} {out : Text} (read : Read print held parts out) :
    held = false → out = meant print parts ∨
      ∃ before first second, out = before ++ '%' :: first ∧ meant print parts = before ++ '%' :: second := by
  have extend (text : Text) {out expected : Text} (agree : out = expected ∨
      ∃ before first second, out = before ++ '%' :: first ∧ expected = before ++ '%' :: second) :
      text ++ out = text ++ expected ∨
        ∃ before first second, text ++ out = before ++ '%' :: first ∧ text ++ expected = before ++ '%' :: second := by
    obtain rfl | ⟨before, first, second, rfl, rfl⟩ := agree
    · exact Or.inl rfl
    · exact Or.inr ⟨text ++ before, first, second, by simp, by simp⟩
  induction read with
  | nil => exact fun _ => Or.inl rfl
  | @char c parts out _ ih => exact fun _ => extend [c] (ih rfl)
  | directive _ ih => exact fun _ => extend _ (ih rfl)
  | @escape parts out _ ih => exact fun _ => Or.inr ⟨[], out, meant print parts, rfl, rfl⟩
  | run _ ih => exact fun plainly => nomatch plainly
  | before _ ih => exact fun plainly => nomatch plainly
  | letter _ ih => exact fun plainly => nomatch plainly
  | braces _ _ _ ih => exact fun plainly => nomatch plainly

theorem Read.no_text_in_front {parts : List Part} {out : Text} (read : Read print false parts out) (text : Text)
    (nonempty : text ≠ []) (free : '%' ∉ text) : out ≠ text ++ meant print parts := by
  intro same
  obtain equal | ⟨before, first, second, left, right⟩ := read.shared rfl
  · have length := congrArg List.length same
    rw [equal, List.length_append] at length
    have := List.length_pos_iff.mpr nonempty
    omega
  · rw [left, right] at same
    exact first_percent text nonempty free before same

/-! ## NUL characters -/

/-- Only text prints a NUL, and none is printed that is not meant. -/
theorem Read.nuls (clean : ∀ letter fmt, '\x00' ∉ print letter fmt) {held : Bool} {parts : List Part} {out : Text}
    (read : Read print held parts out) : out.count '\x00' ≤ (meant print parts).count '\x00' := by
  have none (letter : Letter) (fmt : Text) : (print letter fmt).count '\x00' = 0 :=
    List.count_eq_zero_of_not_mem (clean letter fmt)
  induction read with
  | nil => exact Nat.le_refl _
  | @char c _ _ _ ih =>
    rw [meant_char, List.count_cons, List.count_cons]
    exact Nat.add_le_add_right ih _
  | directive _ ih =>
    rw [meant_directive, List.count_append, List.count_append]
    exact Nat.add_le_add_left ih _
  | escape _ ih => simpa using ih
  | run _ ih => simpa using ih
  | before _ ih => simpa using ih
  | @letter letter parts _ _ ih =>
    rw [meant_char, List.count_append, none, Nat.zero_add, List.count_cons]
    exact Nat.le_add_right_of_le ih
  | @braces letter fmt inner parts out _ _ _ ih =>
    have later : (meant print parts).count '\x00' ≤ (meant print (.char '{' :: (inner ++ parts))).count '\x00' := by
      rw [meant_char, meant_append, List.count_cons, List.count_append]
      omega
    rw [meant_char, List.count_append, none, Nat.zero_add, List.count_cons]
    exact Nat.le_add_right_of_le (ih.trans later)

end Differences

/-! ## The event whose fields are all `0` -/

def zero : LogEvent := ⟨['0'], 0, 0, 0, 0, 0, ['0'], ['0'], ['0']⟩

theorem cString_append {text : Text} (free : '\x00' ∉ text) (rest : Text) : cString (text ++ rest) = text ++ cString rest :=
  List.takeWhile_append_of_pos fun _ member => decide_eq_true fun same => free (same ▸ member)

theorem cString_clean (text : Text) : '\x00' ∉ cString text :=
  fun member => of_decide_eq_true (List.mem_takeWhile_imp (p := (decide <| · ≠ '\x00')) member) rfl

section Zero

variable {expand : Text → Nat → Text}

/-- What is printed for this event when an unset buffer holds `0` as well. -/
abbrev zeros (expand : Text → Nat → Text) : Letter → Text → Text :=
  printer ⟨expand, fun _ _ => ['0']⟩ .debug zero

theorem zeros_clean (letter : Letter) (fmt : Text) : '\x00' ∉ zeros expand letter fmt := by
  cases letter
  case d => exact cString_clean _
  case p => exact (by decide : '\x00' ∉ LogLevel.debug.toString)
  case n => exact (by decide : '\x00' ∉ ['\n'])
  case T => exact (by decide : '\x00' ∉ ['\t'])
  all_goals exact (by decide : '\x00' ∉ ['0'])

theorem expand_ordinary (documented : Documented expand) {text : Text} (free : '%' ∉ text) (clean : '\x00' ∉ text)
    (rest : Text) (time : Nat) : expand (text ++ rest) time = text ++ expand rest time := by
  induction text with
  | nil => rfl
  | cons c text ih =>
    have percent : c ≠ '%' := fun same => free (same ▸ List.mem_cons_self ..)
    have nul : c ≠ '\x00' := fun same => clean (same ▸ List.mem_cons_self ..)
    rw [List.cons_append, documented.ordinary _ _ percent nul,
      ih (fun member => free (List.mem_cons_of_mem _ member)) fun member => clean (List.mem_cons_of_mem _ member)]
    rfl

/-- Every directive prints something else than its letter, but for a `%d` with a format. -/
theorem zeros_head (documented : Documented expand) (letter : Letter) (fmt : Text) (bare : letter = .d → fmt = []) :
    ∃ x out, zeros expand letter fmt = x :: out ∧ x ≠ letter.char := by
  cases letter
  case d =>
    cases bare rfl
    obtain ⟨rest, shape⟩ : ∃ rest, cString defaultFormat = '%' :: 'Y' :: rest := ⟨_, rfl⟩
    obtain ⟨x, out, year, different, -, nul⟩ := documented.conversion rest 0 (Or.inl rfl)
    have all : zeros expand .d [] = cString (if (expand ('%' :: 'Y' :: rest) 0).length < 64
        then expand ('%' :: 'Y' :: rest) 0 else ['0']) := by
      rw [← shape]
      rfl
    rw [all, year]
    split
    · exact ⟨x, cString out, by simp [cString, nul], different⟩
    · exact ⟨'0', [], rfl, by decide⟩
  case p => exact ⟨'D', _, rfl, by decide⟩
  case n => exact ⟨'\n', _, rfl, by decide⟩
  case T => exact ⟨'\t', _, rfl, by decide⟩
  all_goals exact ⟨'0', _, rfl, by decide⟩

/-! ## Text swallowed by a `%d` -/

/-- A text that goes on as itself behind two characters repeats these two. -/
theorem alternates {text first second : Text} {a b : Char} (same : text ++ first = a :: b :: (text ++ second)) :
    first = a :: b :: second ∨ first = b :: a :: second := by
  induction text generalizing a b with
  | nil => exact Or.inl same
  | cons c text ih =>
    obtain ⟨rfl, rest⟩ := List.cons.inj same
    exact (ih rest).symm

/-- Ordinary characters at the front are characters of a literal. -/
theorem written_ordinary {parts : List Part} (text : Text) {rest : Text} (free : '%' ∉ text) (same : written parts = text ++ rest) :
    ∃ behind, parts = text.map Part.char ++ behind ∧ written behind = rest := by
  induction text generalizing parts with
  | nil => exact ⟨parts, rfl, same⟩
  | cons c text ih =>
    have different : c ≠ '%' := fun percent => free (percent ▸ List.mem_cons_self ..)
    have later : '%' ∉ text := fun member => free (List.mem_cons_of_mem _ member)
    cases parts with
    | nil => cases same
    | cons part parts =>
      rw [written_cons] at same
      cases part with
      | char d =>
        obtain ⟨rfl, tail⟩ : d = c ∧ written parts = text ++ rest := List.cons.inj same
        obtain ⟨behind, rfl, last⟩ := ih later tail
        exact ⟨behind, rfl, last⟩
      | directive letter fmt =>
        cases fmt <;> exact absurd (List.cons.inj same).1.symm different
      | escape => exact absurd (List.cons.inj same).1.symm different

theorem meant_literal (print : Letter → Text → Text) (text : Text) : meant print (text.map Part.char) = text := by
  induction text with
  | nil => rfl
  | cons c text ih => rw [List.map_cons, meant_char, ih]

/-- What a text holds at its first `%` or NUL. -/
theorem split_format (fmt : Text) : ∃ text rest, fmt = text ++ rest ∧ '%' ∉ text ∧ '\x00' ∉ text ∧
    (rest = [] ∨ (∃ behind, rest = '\x00' :: behind) ∨ ∃ behind, rest = '%' :: behind) := by
  induction fmt with
  | nil => exact ⟨[], [], rfl, List.not_mem_nil, List.not_mem_nil, Or.inl rfl⟩
  | cons c fmt ih =>
    by_cases percent : c = '%'
    · exact ⟨[], c :: fmt, rfl, List.not_mem_nil, List.not_mem_nil, Or.inr (Or.inr ⟨fmt, by rw [percent]⟩)⟩
    by_cases nul : c = '\x00'
    · exact ⟨[], c :: fmt, rfl, List.not_mem_nil, List.not_mem_nil, Or.inr (Or.inl ⟨fmt, by rw [nul]⟩)⟩
    obtain ⟨text, rest, rfl, free, clean, next⟩ := ih
    exact ⟨c :: text, rest, rfl, by simp [free, Ne.symm percent], by simp [clean, Ne.symm nul], next⟩

/-- Behind a `%` that a part begins with stands another one, or a letter; there
`strftime` prints neither of the two characters that repeat. -/
theorem conversion_head (documented : Documented expand) {parts : List Part} {behind : Text}
    (literal : ∀ c, .char c ∈ parts → c ≠ '%') (same : written parts = '%' :: (behind ++ ['}'])) :
    ∃ k rest, behind = k :: rest ∧ k ≠ '\x00' ∧
      ∀ more, ∃ x out, expand ('%' :: k :: more) 0 = x :: out ∧ x ≠ 'd' ∧ x ≠ '{' ∧ x ≠ '\x00' := by
  cases parts with
  | nil => cases same
  | cons part parts =>
    rw [written_cons] at same
    cases part with
    | char c => exact absurd (List.cons.inj same).1 (literal c (List.mem_cons_self ..))
    | directive letter fmt =>
      have second : ∃ rest, behind ++ ['}'] = letter.char :: rest := by
        cases fmt <;> exact ⟨_, (List.cons.inj same).2.symm⟩
      obtain ⟨rest, second⟩ := second
      cases behind with
      | nil => cases letter <;> cases second
      | cons k behind =>
        obtain ⟨rfl, -⟩ := List.cons.inj second
        refine ⟨_, behind, rfl, ?_, fun more => documented.conversion more 0 (Or.inr ⟨letter, rfl⟩)⟩
        cases letter <;> decide
    | escape =>
      cases behind with
      | nil => cases same
      | cons k behind =>
        obtain rfl : '%' = k := (List.cons.inj (List.cons.inj same).2).1
        exact ⟨'%', behind, rfl, by decide, fun more => ⟨'%', _, documented.percent more 0, by decide, by decide, by decide⟩⟩

/-- A text `d{...}` is never what `%d{...}` prints in its place. -/
theorem swallowed_differs (documented : Documented expand) {fmt out : Text} {inner parts : List Part}
    (given : fmt ≠ []) (literal : ∀ c, .char c ∈ inner → c ≠ '%') (format : written inner = fmt ++ ['}'])
    (read : Read (zeros expand) false parts out) :
    zeros expand .d fmt ++ out ≠ 'd' :: '{' :: (meant (zeros expand) inner ++ meant (zeros expand) parts) := by
  intro same
  have prints : zeros expand .d fmt =
      cString (if (expand (cString fmt) 0).length < 64 then expand (cString fmt) 0 else ['0']) := by
    cases fmt with
    | nil => exact absurd rfl given
    | cons c fmt => rfl
  -- Without room `strftime` leaves the buffer as it is, and that begins with `0`.
  by_cases fits : (expand (cString fmt) 0).length < 64
  case neg =>
    rw [prints, if_neg fits] at same
    cases same
  rw [if_pos fits] at prints
  obtain ⟨text, rest, rfl, free, clean, next⟩ := split_format fmt
  rw [List.append_assoc] at format
  obtain ⟨behind, rfl, tail⟩ := written_ordinary text free format
  rw [meant_append, meant_literal, List.append_assoc] at same
  rw [cString_append clean, expand_ordinary documented free clean, cString_append clean] at prints
  rw [prints, List.append_assoc] at same
  have later : ∀ c, .char c ∈ behind → c ≠ '%' := fun c member => literal c (List.mem_append_right _ member)
  obtain rfl | ⟨more, rfl⟩ | ⟨more, rfl⟩ := next
  · -- The whole format is copied, and a character of the text is missing.
    obtain ⟨last, rfl, ends⟩ := written_ordinary ['}'] (by decide) tail
    have done : last = [] := by
      cases last with
      | nil => rfl
      | cons part last =>
        rw [written_cons] at ends
        cases part with
        | char c => cases ends
        | directive letter fmt => cases fmt <;> cases ends
        | escape => cases ends
    subst done
    have nothing : cString (expand (cString []) 0) = [] := by
      rw [show cString [] = [] from rfl, documented.nothing]
      rfl
    rw [nothing, List.nil_append] at same
    obtain equal | equal := alternates same
    · exact read.no_text_in_front ['d', '{', '}'] (by decide) (by decide) equal
    · exact read.no_text_in_front ['{', 'd', '}'] (by decide) (by decide) equal
  · -- The format ends at the NUL, which is never printed.
    obtain ⟨last, rfl, -⟩ := written_ordinary ['\x00'] (by decide) tail
    have nothing : cString (expand (cString ('\x00' :: more)) 0) = [] := by
      rw [show cString ('\x00' :: more) = [] from rfl, documented.nothing]
      rfl
    rw [nothing, List.nil_append] at same
    have bound := read.nuls zeros_clean
    obtain equal | equal := alternates same <;>
    · rw [equal, meant_append] at bound
      simp [List.count_append] at bound
      omega
  · -- At the first conversion something is printed that the text does not have.
    obtain ⟨k, rest, rfl, printable, prints⟩ := conversion_head documented later tail
    obtain ⟨x, out, head, notLetter, notBrace, notNul⟩ := prints (cString rest)
    have cut : cString ('%' :: k :: rest) = '%' :: k :: cString rest := by simp [cString, printable]
    have first : cString (expand (cString ('%' :: k :: rest)) 0) = x :: cString out := by
      rw [cut, head]
      simp [cString, notNul]
    rw [first, List.cons_append] at same
    obtain equal | equal := alternates same
    · exact notLetter (List.cons.inj equal).1
    · exact notBrace (List.cons.inj equal).1

/-- What is printed is what is meant only without escapes. -/
theorem Read.differs (documented : Documented expand) {held : Bool} {parts : List Part} {out : Text}
    (read : Read (zeros expand) held parts out) (literal : ∀ c, .char c ∈ parts → c ≠ '%')
    (same : out = meant (zeros expand) parts) : held = false ∧ .escape ∉ parts := by
  have behind {part : Part} {parts : List Part} (literal : ∀ c, .char c ∈ part :: parts → c ≠ '%') :
      ∀ c, .char c ∈ parts → c ≠ '%' := fun c member => literal c (List.mem_cons_of_mem _ member)
  induction read with
  | nil => exact ⟨rfl, List.not_mem_nil⟩
  | char _ ih =>
    obtain ⟨-, free⟩ := ih (behind literal) (List.cons.inj same).2
    exact ⟨rfl, by simp [free]⟩
  | directive _ ih =>
    obtain ⟨-, free⟩ := ih (behind literal) (List.append_cancel_left same)
    exact ⟨rfl, by simp [free]⟩
  | escape _ ih =>
    obtain ⟨impossible, -⟩ := ih (behind literal) (List.cons.inj same).2
    cases impossible
  -- A held `%` that is printed is one too many; one that is not takes a letter with it.
  | run read ih => exact absurd (List.cons.inj same).2 (read.too_many 0)
  | before read ih => exact absurd same (read.too_many 0)
  | @letter letter parts out _ _ =>
    obtain ⟨x, printed, head, different⟩ := zeros_head documented letter [] fun _ => rfl
    rw [head] at same
    exact absurd (List.cons.inj same).1 different
  | @braces letter fmt inner parts out _ format read _ =>
    by_cases date : letter = .d ∧ fmt ≠ []
    · obtain ⟨rfl, given⟩ := date
      rw [meant_char, meant_char, meant_append] at same
      refine absurd same (swallowed_differs documented given (fun c member => ?_) format read)
      exact literal c (List.mem_cons_of_mem _ (List.mem_cons_of_mem _ (List.mem_append_left _ member)))
    · have bare : letter = .d → fmt = [] := fun same => not_not.mp fun given => date ⟨same, given⟩
      obtain ⟨x, printed, head, different⟩ := zeros_head documented letter fmt bare
      rw [head] at same
      exact absurd (List.cons.inj same).1 different

end Zero

theorem Aligned.literal {parts : List Part} (aligned : Aligned parts) : ∀ c, .char c ∈ parts → c ≠ '%' := by
  intro c member
  obtain ⟨before, after, rfl⟩ := List.append_of_mem member
  exact (aligned.right before).1

/-- A pattern is printed as it is meant exactly when it has no escape. -/
theorem faithful_of_aligned {expand : Text → Nat → Text} (documented : Documented expand) {parts : List Part}
    (aligned : Aligned parts) : Faithful expand parts ↔ .escape ∉ parts := by
  constructor
  · rintro ⟨fine, same⟩
    have accepted := (isError_iff _).mp fine
    obtain ⟨out, read, prints⟩ := (read_of_accepted ⟨expand, fun _ _ => ['0']⟩ .debug zero _ parts rfl aligned []).1 accepted
    have equal := same (fun _ _ => ['0']) .debug zero
    rw [format_init, prints, List.nil_append] at equal
    exact (read.differs documented aligned.literal equal).2
  · intro free
    constructor
    · exact (isError_iff _).mpr (faithful_entries ⟨expand, fun _ _ => []⟩ .debug zero [] aligned free).1
    · intro leftover level event
      rw [format_init]
      exact (faithful_entries ⟨expand, leftover⟩ level event [] aligned free).2

/-! ## Doubling -/

theorem written_literally (s : Text) : written (literally s) = doubled s := by
  rw [written, literally, doubled, List.flatMap_map]
  congr 1
  funext c
  split <;> rfl

theorem meant_literally (print : Letter → Text → Text) (s : Text) : meant print (literally s) = s := by
  induction s with
  | nil => rfl
  | cons c s ih =>
    rw [literally, List.map_cons, ← literally]
    split
    next percent => rw [meant_escape, ih, percent]
    · rw [meant_char, ih]

theorem aligned_literally (s : Text) : Aligned (literally s) := by
  induction s with
  | nil => trivial
  | cons c s ih =>
    rw [literally, List.map_cons, ← literally]
    split
    · exact ih
    next other => exact ⟨other, ih⟩

theorem escape_mem_literally (s : Text) : .escape ∈ literally s ↔ '%' ∈ s := by
  constructor
  · intro member
    obtain ⟨c, inside, same⟩ := List.mem_map.mp member
    split at same
    next percent => exact percent ▸ inside
    · cases same
  · intro member
    exact List.mem_map.mpr ⟨'%', member, rfl⟩

/-- Escapes work in no pattern, and doubling only in texts without `%`. -/
theorem escapes_faithful_iff {expand : Text → Nat → Text} (documented : Documented expand) :
    (∀ parts, Aligned parts → (Faithful expand parts ↔ .escape ∉ parts)) ∧
      ∀ s, ((LogFormatter.init (doubled s)).isError = false ∧ ∀ leftover level event,
        (LogFormatter.init (doubled s)).format ⟨expand, leftover⟩ level event = s) ↔ '%' ∉ s := by
  refine ⟨fun parts aligned => faithful_of_aligned documented aligned, fun s => ?_⟩
  have whole := faithful_of_aligned documented (aligned_literally s)
  rw [escape_mem_literally, Faithful, written_literally] at whole
  simpa only [meant_literally] using whole

/-- The conversions at the start of 1970, in UTC. -/
def epochConversion : Char → Text
  | '%' => ['%']
  | 'Y' => ['1', '9', '7', '0']
  | 'm' | 'd' => ['0', '1']
  | 'H' | 'M' | 'S' => ['0', '0']
  | 'p' => ['A', 'M']
  | 'r' => ['1', '2', ':', '0', '0', ':', '0', '0', ' ', 'A', 'M']
  | 'c' => ['T', 'h', 'u', ' ', 'J', 'a', 'n', ' ', ' ', '1', ' ', '0', '0', ':', '0', '0', ':', '0', '0', ' ',
      '1', '9', '7', '0']
  | 't' => ['\t']
  | 'n' => ['\n']
  | 'l' => ['1', '2']
  | 'T' => ['0', '0', ':', '0', '0', ':', '0', '0']
  | 'F' => ['1', '9', '7', '0', '-', '0', '1', '-', '0', '1']
  | k => ['%', k]

def epoch : Text → Nat → Text
  | [], _ => []
  | [c], _ => [c]
  | c :: k :: rest, time => if c = '%' then epochConversion k ++ epoch rest time else c :: epoch (k :: rest) time

theorem epoch_documented : Documented epoch where
  nothing _ := rfl
  ordinary rest time percent _ := by cases rest <;> simp [epoch, percent]
  percent rest time := by simp [epoch, epochConversion]
  conversion rest time letter := by
    obtain rfl | ⟨letter, rfl⟩ := letter
    · simp [epoch, epochConversion]
    · cases letter <;> simp [epoch, epochConversion, Letter.char]

/-- A level and a message, and a text without `%`. -/
theorem escapes_faithful_iff_level :
    Faithful epoch [.char '[', .directive .p none, .char ']', .directive .m none] ∧
      ¬ Faithful epoch [.escape, .directive .m none] ∧
      (LogFormatter.init (doubled ['a', ' ', 'b'])).isError = false := by
  obtain ⟨parts, texts⟩ := escapes_faithful_iff epoch_documented
  have ends : Ends (written [.char ']', .directive .m none]) := by
    rintro c ⟨⟩
    decide
  have last : Ends (written []) := by
    rintro c ⟨⟩
  refine ⟨(parts _ ?_).mpr (by decide), (parts _ ?_).not.mpr (by decide), ((texts _).mpr (by decide)).1⟩
  · exact ⟨by decide, ends, by decide, last, trivial⟩
  · exact ⟨last, trivial⟩

/-- `100%%` is an error, and `%%m` prints a message in the middle of the text. -/
theorem percent_not_escaped :
    (LogFormatter.init (doubled ['1', '0', '0', '%'])).isError = true ∧
      (LogFormatter.init (doubled ['%', 'm'])).items = [.string ['%'], .message] ∧
      ¬ Faithful epoch (literally ['%', 'm']) := by
  have last : entries [] ['1', '0', '0', '%', '%'] = ([⟨['1', '0', '0', '%'], [], 0⟩, ⟨[], [], 1⟩], false) := by
    rw [entries_literal (by decide), entries_literal (by decide), entries_literal (by decide), entries_escape rfl,
      entries_directive (by decide) (show directive [] = some ⟨[], [], []⟩ from rfl), entries_nil]
    rfl
  have letter : entries [] ['%', '%', 'm'] = ([⟨['%'], [], 0⟩, ⟨['m'], [], 1⟩], false) := by
    rw [entries_escape rfl, entries_directive (by decide) (show directive ['m'] = some ⟨['m'], [], []⟩ from rfl),
      entries_nil]
    rfl
  refine ⟨?_, ?_, ?_⟩
  · rw [init_eq, show doubled ['1', '0', '0', '%'] = ['1', '0', '0', '%', '%'] from rfl, last]
    rfl
  · rw [init_eq, show doubled ['%', 'm'] = ['%', '%', 'm'] from rfl, letter]
    rfl
  · exact (faithful_of_aligned epoch_documented (aligned_literally _)).not.mpr (by decide)

end HpsSf.Log

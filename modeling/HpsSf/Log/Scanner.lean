import HpsSf.Log.Formatter
import Mathlib.Data.List.TakeWhile

/-! The scanner of the formatter without its indices.

`scan` and `scanAll` work on positions of one fixed pattern. Here both are read
as functions of the text that is still ahead.
-/

set_option autoImplicit false

namespace HpsSf.Log
open Foundation (Text)

/-- What the inner loop passes before a brace. -/
def plain (c : Char) : Bool := c.isAlpha || c == '}'

/-- A directive's letters and format, and the text behind it. -/
structure Directive where
  str : Text
  fmt : Text
  rest : Text
  deriving DecidableEq, Repr

/-- The directive behind a `%`; `none` if its brace is never closed. -/
def directive (ahead : Text) : Option Directive :=
  match ahead.dropWhile plain with
  | [] => some ⟨ahead.takeWhile plain, [], []⟩
  | c :: inner =>
    if c = '{' then
      match inner.dropWhile (· ≠ '}') with
      | [] => none
      | _ :: rest => some ⟨ahead.takeWhile plain, inner.takeWhile (· ≠ '}'), rest⟩
    else some ⟨ahead.takeWhile plain, [], c :: inner⟩

/-- The four ways in which a text goes on behind a `%`. -/
inductive Reading : Text → Option Directive → Prop where
  | last {letters : Text} : (∀ c ∈ letters, plain c = true) → Reading letters (some ⟨letters, [], []⟩)
  | bare {letters rest : Text} {c : Char} : (∀ c ∈ letters, plain c = true) → plain c = false → c ≠ '{' →
      Reading (letters ++ c :: rest) (some ⟨letters, [], c :: rest⟩)
  | braces {letters fmt rest : Text} : (∀ c ∈ letters, plain c = true) → '}' ∉ fmt →
      Reading (letters ++ '{' :: (fmt ++ '}' :: rest)) (some ⟨letters, fmt, rest⟩)
  | unclosed {letters inner : Text} : (∀ c ∈ letters, plain c = true) → '}' ∉ inner →
      Reading (letters ++ '{' :: inner) none

/-- A text up to the first character that fails a test. -/
theorem span_parts (test : Char → Bool) (text : Text) : (∀ c ∈ text.takeWhile test, test c = true) ∧
    text.takeWhile test ++ text.dropWhile test = text ∧
      ∀ c rest, text.dropWhile test = c :: rest → test c = false := by
  refine ⟨fun c => List.mem_takeWhile_imp, List.takeWhile_append_dropWhile, fun c rest left => ?_⟩
  have first := List.head?_dropWhile_not test text
  rw [left] at first
  simpa using first

theorem directive_reading (ahead : Text) : Reading ahead (directive ahead) := by
  have span := span_parts plain ahead
  unfold directive
  generalize ahead.takeWhile plain = letters at span ⊢
  generalize ahead.dropWhile plain = left at span ⊢
  obtain ⟨passed, rfl, stops⟩ := span
  cases left with
  | nil =>
    rw [List.append_nil]
    exact .last passed
  | cons c inner =>
    by_cases brace : c = '{'
    · subst brace
      have span := span_parts (· ≠ '}') inner
      simp only [if_true]
      generalize inner.takeWhile (· ≠ '}') = fmt at span ⊢
      generalize inner.dropWhile (· ≠ '}') = behind at span ⊢
      obtain ⟨open_, rfl, closing⟩ := span
      have free : '}' ∉ fmt := fun member => of_decide_eq_true (open_ _ member) rfl
      cases behind with
      | nil =>
        rw [List.append_nil]
        exact .unclosed passed free
      | cons d rest =>
        obtain rfl : d = '}' := not_not.mp (of_decide_eq_false (closing d rest rfl))
        exact .braces passed free
    · simp only [if_neg brace]
      exact .bare passed (stops c inner rfl) brace

theorem directive_shorter {ahead : Text} {found : Directive} (closed : directive ahead = some found) :
    found.rest.length ≤ ahead.length := by
  have reading := directive_reading ahead
  rw [closed] at reading
  cases reading with
  | last passed => exact Nat.zero_le _
  | bare passed stop brace => simp
  | braces passed open_ => simp; omega

/-- The outer loop on the text ahead: the entries it adds, and whether it finds an error. -/
def entries (nstr : Text) : Text → List Entry × Bool
  | [] => (flush nstr, false)
  | c :: ahead =>
    if c ≠ '%' then entries (nstr ++ [c]) ahead
    else if ahead.head? = some '%' then entries (nstr ++ ['%']) ahead
    else
      match closed : directive ahead with
      | some found =>
          have := directive_shorter closed
          let later := entries [] found.rest
          (flush nstr ++ ⟨found.str, found.fmt, 1⟩ :: later.1, later.2)
      | none => (⟨"<<pattern_error>>".toList, [], 0⟩ :: (entries nstr ahead).1, true)
termination_by ahead => ahead.length

theorem entries_nil (nstr : Text) : entries nstr [] = (flush nstr, false) := by
  rw [entries]

theorem entries_literal {nstr ahead : Text} {c : Char} (literal : c ≠ '%') :
    entries nstr (c :: ahead) = entries (nstr ++ [c]) ahead := by
  rw [entries, if_pos literal]

theorem entries_escape {nstr ahead : Text} (second : ahead.head? = some '%') :
    entries nstr ('%' :: ahead) = entries (nstr ++ ['%']) ahead := by
  rw [entries, if_neg (not_not_intro rfl), if_pos second]

theorem entries_directive {nstr ahead : Text} {found : Directive} (single : ahead.head? ≠ some '%')
    (closed : directive ahead = some found) :
    entries nstr ('%' :: ahead) =
      (flush nstr ++ ⟨found.str, found.fmt, 1⟩ :: (entries [] found.rest).1, (entries [] found.rest).2) := by
  rw [entries, if_neg (not_not_intro rfl), if_neg single]
  split
  next other same =>
    cases closed.symm.trans same
    rfl
  next unclosed => cases closed.symm.trans unclosed

theorem entries_unclosed {nstr ahead : Text} (single : ahead.head? ≠ some '%') (unclosed : directive ahead = none) :
    entries nstr ('%' :: ahead) = (⟨"<<pattern_error>>".toList, [], 0⟩ :: (entries nstr ahead).1, true) := by
  rw [entries, if_neg (not_not_intro rfl), if_neg single]
  split
  next found closed => cases unclosed.symm.trans closed
  next => rfl

/-! ## Positions -/

theorem ahead_cons {pattern ahead : Text} {n : Nat} {c : Char} (here : pattern.drop n = c :: ahead) :
    ∃ inside : n < pattern.length, pattern[n] = c ∧ pattern.drop (n + 1) = ahead := by
  have inside : n < pattern.length := by
    by_contra beyond
    rw [List.drop_of_length_le (Nat.le_of_not_lt beyond)] at here
    cases here
  rw [List.drop_eq_getElem_cons inside] at here
  exact ⟨inside, List.cons.inj here⟩

theorem ahead_nil {pattern : Text} {n : Nat} (here : pattern.drop n = []) : ¬ n < pattern.length :=
  Nat.not_lt.mpr (List.drop_eq_nil_iff.mp here)

theorem ahead_length {pattern ahead : Text} {n : Nat} (here : pattern.drop n = ahead) (inside : n ≤ pattern.length) :
    n + ahead.length = pattern.length := by
  rw [← here, List.length_drop, Nat.add_sub_cancel' inside]

/-- What lies between two positions. -/
theorem substr_eq {pattern first ahead : Text} {pos len : Nat} (here : pattern.drop pos = first ++ ahead)
    (same : len = first.length) : substr pattern pos len = first := by
  rw [substr, here, same, List.take_left]

/-! ## The inner loop -/

/-- Inside the braces, up to the closing one. -/
theorem scan_closed {pattern inner rest : Text} {i n fmtBegin : Nat} {str fmt : Text}
    (here : pattern.drop n = inner ++ '}' :: rest) (open_ : '}' ∉ inner) :
    scan pattern i n true fmtBegin str fmt = ⟨n + inner.length + 1, false, str,
      substr pattern (fmtBegin + 1) (n + inner.length - fmtBegin - 1)⟩ := by
  induction inner generalizing n with
  | nil =>
    obtain ⟨inside, read, -⟩ := ahead_cons here
    rw [scan]
    simp [inside, read]
  | cons c inner ih =>
    rw [List.cons_append] at here
    obtain ⟨inside, read, next⟩ := ahead_cons here
    have different : c ≠ '}' := fun same => open_ (same ▸ List.mem_cons_self ..)
    -- The closing brace is still ahead, so this is not the last character.
    have more : n + 1 ≠ pattern.length := by
      have := ahead_length next inside
      rw [List.length_append, List.length_cons] at this
      omega
    rw [scan]
    simp [inside, read, different, more]
    have reach : n + 1 + inner.length = n + (inner.length + 1) := by omega
    rw [ih next fun member => open_ (List.mem_cons_of_mem _ member), reach]

/-- Inside braces that are never closed. -/
theorem scan_unclosed {pattern inner : Text} {i n fmtBegin : Nat} {str fmt : Text}
    (here : pattern.drop n = inner) (open_ : '}' ∉ inner) :
    (scan pattern i n true fmtBegin str fmt).fmtStatus = true ∧ (scan pattern i n true fmtBegin str fmt).fmt = fmt := by
  induction inner generalizing n str with
  | nil =>
    rw [scan, dif_neg (ahead_nil here)]
    exact ⟨rfl, rfl⟩
  | cons c inner ih =>
    obtain ⟨inside, read, next⟩ := ahead_cons here
    have different : c ≠ '}' := fun same => open_ (same ▸ List.mem_cons_self ..)
    rw [scan]
    simp [inside, read, different]
    exact ih next fun member => open_ (List.mem_cons_of_mem _ member)

theorem plain_iff {c : Char} : plain c = true ↔ c.isAlpha = true ∨ c = '}' := by
  simp [plain]

theorem plain_ne_brace {c : Char} (passed : plain c = true) : c ≠ '{' := by
  rintro rfl
  exact absurd passed (by decide)

/-- Letters are passed while something is still behind them. -/
theorem scan_plain {pattern first rest : Text} {i n fmtBegin : Nat} {fmt : Text} {c : Char}
    (here : pattern.drop n = first ++ c :: rest) (passed : ∀ x ∈ first, plain x = true) :
    scan pattern i n false fmtBegin [] fmt = scan pattern i (n + first.length) false fmtBegin [] fmt := by
  induction first generalizing n with
  | nil => rfl
  | cons x first ih =>
    rw [List.cons_append] at here
    obtain ⟨inside, read, next⟩ := ahead_cons here
    have skip := plain_iff.mp (passed x (List.mem_cons_self ..))
    have notBrace := plain_ne_brace (passed x (List.mem_cons_self ..))
    have more : n + 1 ≠ pattern.length := by
      have := ahead_length next inside
      rw [List.length_append, List.length_cons] at this
      omega
    calc scan pattern i n false fmtBegin [] fmt
        = scan pattern i (n + 1) false fmtBegin [] fmt := by
          conv => lhs; rw [scan]
          obtain letter | closing := skip
          · simp [inside, read, letter, notBrace, more]
          · simp [inside, read, closing, more]
      _ = scan pattern i (n + 1 + first.length) false fmtBegin [] fmt :=
          ih next fun y member => passed y (List.mem_cons_of_mem _ member)
      _ = scan pattern i (n + (x :: first).length) false fmtBegin [] fmt := by
          rw [List.length_cons, Nat.add_assoc, Nat.add_comm 1]

/-- Letters up to the very end of the pattern. -/
theorem scan_plain_end {pattern first : Text} {i n fmtBegin : Nat} {fmt : Text} (within : n ≤ pattern.length)
    (here : pattern.drop n = first) (passed : ∀ x ∈ first, plain x = true) :
    scan pattern i n false fmtBegin [] fmt =
      ⟨pattern.length, false, if first.isEmpty then [] else pattern.drop (i + 1), fmt⟩ := by
  induction first generalizing n with
  | nil =>
    have last := ahead_length here within
    rw [scan, dif_neg (ahead_nil here)]
    simpa using last
  | cons x first ih =>
    obtain ⟨inside, read, next⟩ := ahead_cons here
    have skip := plain_iff.mp (passed x (List.mem_cons_self ..))
    have notBrace := plain_ne_brace (passed x (List.mem_cons_self ..))
    have length := ahead_length next inside
    have step : scan pattern i n false fmtBegin [] fmt =
        scan pattern i (n + 1) false fmtBegin (if n + 1 = pattern.length then pattern.drop (i + 1) else []) fmt := by
      conv => lhs; rw [scan]
      obtain letter | closing := skip
      · simp [inside, read, letter, notBrace]
      · simp [inside, read, closing]
    rw [step]
    cases first with
    | nil =>
      have last : n + 1 = pattern.length := by simpa using length
      rw [if_pos last, scan, dif_neg (ahead_nil next), last]
      rfl
    | cons y first =>
      have more : n + 1 ≠ pattern.length := by
        rw [List.length_cons] at length
        omega
      rw [if_neg more, ih inside next fun z member => passed z (List.mem_cons_of_mem _ member)]
      rfl

theorem ahead_append {pattern first rest : Text} {n : Nat} (here : pattern.drop n = first ++ rest) :
    pattern.drop (n + first.length) = rest := by
  rw [← List.drop_drop, here, List.drop_left]

/-- At the first character that is not passed the loop stops, or a brace opens. -/
theorem scan_stop {pattern first inner : Text} {i : Nat} {c : Char} (here : pattern.drop (i + 1) = first ++ c :: inner)
    (passed : ∀ x ∈ first, plain x = true) (stop : plain c = false) :
    scan pattern i (i + 1) false 0 [] [] =
      if c = '{' then scan pattern i (i + 1 + first.length + 1) true (i + 1 + first.length) first []
      else ⟨i + 1 + first.length, false, first, []⟩ := by
  obtain ⟨inside, read, -⟩ := ahead_cons (ahead_append here)
  have text : substr pattern (i + 1) (i + 1 + first.length - i - 1) = first := substr_eq here (by omega)
  have letters : c.isAlpha = false ∧ c ≠ '}' := by simpa [plain] using stop
  rw [scan_plain here passed, scan]
  by_cases brace : c = '{'
  · subst brace
    simp [inside, read, text, letters.1]
  · simp [inside, read, text, letters, brace]

theorem scan_directive {pattern ahead : Text} {i : Nat} {found : Directive} (inside : i < pattern.length)
    (here : pattern.drop (i + 1) = ahead) (closed : directive ahead = some found) :
    ∃ n, i < n ∧ n ≤ pattern.length ∧ pattern.drop n = found.rest ∧
      scan pattern i (i + 1) false 0 [] [] = ⟨n, false, found.str, found.fmt⟩ := by
  have reading := directive_reading ahead
  rw [closed] at reading
  cases reading with
  | last passed =>
    refine ⟨pattern.length, inside, Nat.le_refl _, List.drop_length, ?_⟩
    rw [scan_plain_end inside here passed, here]
    cases ahead <;> rfl
  | @bare letters rest c passed stop brace =>
    obtain ⟨within, -, -⟩ := ahead_cons (ahead_append here)
    refine ⟨i + 1 + letters.length, by omega, Nat.le_of_lt within, ahead_append here, ?_⟩
    rw [scan_stop here passed stop, if_neg brace]
  | @braces letters fmt rest passed open_ =>
    obtain ⟨-, -, next⟩ := ahead_cons (ahead_append here)
    obtain ⟨before, -, after⟩ := ahead_cons (ahead_append next)
    have format : substr pattern (i + 1 + letters.length + 1)
        (i + 1 + letters.length + 1 + fmt.length - (i + 1 + letters.length) - 1) = fmt :=
      substr_eq next (by omega)
    refine ⟨_, ?_, before, after, ?_⟩
    · omega
    · rw [scan_stop here passed (by decide), if_pos rfl, scan_closed next open_, format]

theorem scan_open {pattern ahead : Text} {i : Nat} (here : pattern.drop (i + 1) = ahead)
    (unclosed : directive ahead = none) :
    (scan pattern i (i + 1) false 0 [] []).fmtStatus = true ∧ (scan pattern i (i + 1) false 0 [] []).fmt = [] := by
  have reading := directive_reading ahead
  rw [unclosed] at reading
  cases reading with
  | unclosed passed open_ =>
    obtain ⟨-, -, next⟩ := ahead_cons (ahead_append here)
    rw [scan_stop here passed (by decide), if_pos rfl]
    exact scan_unclosed next open_

/-! ## The outer loop -/

/-- The scanner reads what is ahead, whatever it has read before. -/
theorem scanAll_eq {pattern ahead nstr : Text} {i : Nat} {vec : List Entry} {error : Bool} (within : i ≤ pattern.length)
    (here : pattern.drop i = ahead) :
    scanAll pattern i nstr vec error = (vec ++ (entries nstr ahead).1, error || (entries nstr ahead).2) := by
  induction nstr, ahead using entries.induct generalizing i vec error with
  | case1 nstr => rw [scanAll, dif_neg (ahead_nil here), entries_nil, Bool.or_false]
  | case2 nstr c ahead literal ih =>
    obtain ⟨inside, read, next⟩ := ahead_cons here
    rw [scanAll, dif_pos inside, read, if_pos literal, ih inside next, entries_literal literal]
  | case3 nstr c ahead percent escape ih =>
    obtain ⟨inside, read, next⟩ := ahead_cons here
    obtain rfl : c = '%' := not_not.mp percent
    have second : pattern[i + 1]? = some '%' := by rw [← escape, ← next, List.head?_drop]
    rw [scanAll, dif_pos inside, read, if_neg percent, if_pos second, ih inside next, entries_escape escape]
  | case4 nstr c ahead percent single found closed shorter ih =>
    obtain ⟨inside, read, next⟩ := ahead_cons here
    obtain rfl : c = '%' := not_not.mp percent
    have second : pattern[i + 1]? ≠ some '%' := by rwa [← List.head?_drop, next]
    obtain ⟨n, further, before, behind, result⟩ := scan_directive inside next closed
    have back : n - 1 + 1 = n := Nat.sub_add_cancel (Nat.one_le_of_lt further)
    rw [scanAll, dif_pos inside, read, if_neg percent, if_neg second, entries_directive single closed]
    simp only [result, if_true, back]
    rw [ih before behind]
    simp
  | case5 nstr c ahead percent single unclosed ih =>
    obtain ⟨inside, read, next⟩ := ahead_cons here
    obtain rfl : c = '%' := not_not.mp percent
    have second : pattern[i + 1]? ≠ some '%' := by rwa [← List.head?_drop, next]
    obtain ⟨status, format⟩ := scan_open next unclosed
    rw [scanAll, dif_pos inside, read, if_neg percent, if_neg second, entries_unclosed single unclosed]
    simp only [status, format]
    rw [if_neg (by decide), ih inside next]
    simp

/-- The formatter, from the entries of its whole pattern. -/
theorem init_eq (pattern : Text) :
    LogFormatter.init pattern = ⟨pattern, (entries [] pattern).1.map fun entry => entry.item.1,
      (entries [] pattern).2 || (entries [] pattern).1.any fun entry => entry.item.2⟩ := by
  rw [LogFormatter.init, scanAll_eq (Nat.zero_le _) (List.drop_zero)]
  rfl

end HpsSf.Log

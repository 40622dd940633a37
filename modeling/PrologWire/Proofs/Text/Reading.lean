import PrologWire.Arena.Handle
import PrologWire.Proofs.Text.Tokens

/-!
# Reading atoms and strings back

A reader goes through Prolog text from the left to the right. Between quotes it takes one character after the
other, and knows of those before it only whether it is behind a backslash or among the digits of a code; it
ends at the first quote that is not behind a backslash. A word ends before the first character that is not in
words. This one reader gives back every name and every string from the text that is written for it, and leaves
what comes behind the text.
-/

namespace PrologWire.Text

/-! ## The reader -/

/-- Where a reader is between quotes. -/
inductive Place where
  /-- In front of a character. -/
  | plain
  /-- Behind a backslash. -/
  | escape
  /-- Among the hexadecimal digits of a code, with the number that they denote if there was one. -/
  | code (read : Option Nat)

/-- What a character means to a reader between quotes. -/
inductive Sense where
  | goOn (place : Place)
  /-- A character of the text is complete. -/
  | take (c : Char)
  | close
  | fault

/-- The value of a hexadecimal digit. -/
def hexDigit? (c : Char) : Option Nat :=
  if '0' ≤ c ∧ c ≤ '9' then some (c.toNat - '0'.toNat)
  else if 'A' ≤ c ∧ c ≤ 'F' then some (c.toNat - 'A'.toNat + 10)
  else if 'a' ≤ c ∧ c ≤ 'f' then some (c.toNat - 'a'.toNat + 10)
  else none

/-- The meaning of a character between quotes. A code ends with a backslash. -/
def Place.sense (quote c : Char) : Place → Sense
  | plain => if c = quote then .close else if c = '\\' then .goOn escape else .take c
  | escape => if c = 'x' then .goOn (code none) else if c ∈ escapeLetters then .take (unescaped c) else .fault
  | code read =>
    if c = '\\' then (read.filter Nat.isValidChar).elim .fault (.take <| Char.ofNat ·)
    else (hexDigit? c).elim .fault fun digit => .goOn (code (some (16 * read.getD 0 + digit)))

/-- The text up to the closing quote, and what comes behind this. -/
def readQuoted (quote : Char) : Place → List Char → Option (List Char × List Char)
  | _, [] => none
  | place, c :: rest =>
    match place.sense quote c with
    | .goOn place => readQuoted quote place rest
    | .take d => (readQuoted quote .plain rest).map (Prod.map (d :: ·) id)
    | .close => some ([], rest)
    | .fault => none

/-- The atom or the string that a text begins with, and what comes behind it. -/
def readToken : List Char → Option (TextKind × List Char × List Char)
  | '"' :: rest => (readQuoted '"' .plain rest).map (.str, ·)
  | '\'' :: rest => (readQuoted '\'' .plain rest).map (.atom, ·)
  | '[' :: ']' :: rest => some (.atom, ['[', ']'], rest)
  | '\x7b' :: '\x7d' :: rest => some (.atom, ['\x7b', '\x7d'], rest)
  | c :: rest =>
    if c.isLower then some (.atom, c :: rest.takeWhile isWordChar, rest.dropWhile isWordChar) else none
  | [] => none

/-! ## Between quotes -/

/-- Between such quotes the reader takes the characters for one. -/
def Spells (quote c : Char) (form : List Char) : Prop :=
  ∀ rest, readQuoted quote .plain (form ++ rest) = (readQuoted quote .plain rest).map (Prod.map (c :: ·) id)

variable {quote c : Char}

theorem spells_plain (inside : c ≠ quote) (other : c ≠ '\\') : Spells quote c [c] := by
  intro rest
  rw [List.singleton_append, readQuoted, Place.sense, if_neg inside, if_neg other]

/-- A backslash is not taken for a character. -/
theorem readQuoted_backslash (other : quote ≠ '\\') (rest : List Char) :
    readQuoted quote .plain ('\\' :: rest) = readQuoted quote .escape rest := by
  rw [readQuoted, Place.sense, if_neg (Ne.symm other), if_pos rfl]

theorem spells_escaped (other : quote ≠ '\\') {e : Char} (letter : e ∈ escapeLetters) :
    Spells quote (unescaped e) ['\\', e] := by
  intro rest
  show readQuoted quote .plain ('\\' :: e :: rest) = _
  rw [readQuoted_backslash other, readQuoted, Place.sense, if_neg (ne_x_of_mem_escapeLetters letter),
    if_pos letter]

/-- Among the digits of a code, a digit is added to the number. -/
theorem readQuoted_digit {d : Char} {digit : Nat} (value : hexDigit? d = some digit) (read : Option Nat)
    (rest : List Char) :
    readQuoted quote (.code read) (d :: rest) =
      readQuoted quote (.code (some (16 * read.getD 0 + digit))) rest := by
  have other : d ≠ '\\' := by
    rintro rfl
    cases value
  rw [readQuoted, Place.sense, if_neg other, value]
  rfl

/-- A backslash ends a code, if there is a character with its number. -/
theorem readQuoted_code (c : Char) (rest : List Char) :
    readQuoted quote (.code (some c.toNat)) ('\\' :: rest) =
      (readQuoted quote .plain rest).map (Prod.map (c :: ·) id) := by
  have valid : (some c.toNat).filter Nat.isValidChar = some c.toNat :=
    Option.filter_some_pos (decide_eq_true c.valid)
  rw [readQuoted, Place.sense, if_pos rfl, valid, Option.elim_some, Char.ofNat_toNat]

/-- A number below 160 has two hexadecimal digits. -/
theorem exists_hexUpper {n : Nat} (small : n < 160) :
    ∃ d e, hexUpper 2 n = [d, e] ∧ hexDigit? d = some (n / 16) ∧ hexDigit? e = some (n % 16) := by
  have digits : ∀ k < 160, (hexUpper 2 k).map hexDigit? = [some (k / 16), some (k % 16)] := by
    decide +kernel
  obtain ⟨d, others, shown, high, values⟩ := List.map_eq_cons_iff.mp (digits n small)
  obtain ⟨e, none, rfl, low, empty⟩ := List.map_eq_cons_iff.mp values
  rw [List.map_eq_nil_iff.mp empty] at shown
  exact ⟨d, e, shown, high, low⟩

theorem spells_code (other : quote ≠ '\\') (small : c.toNat < 160) :
    Spells quote c ('\\' :: 'x' :: hexUpper 2 c.toNat ++ ['\\']) := by
  intro rest
  obtain ⟨d, e, digits, high, low⟩ := exists_hexUpper small
  have number : 16 * (16 * 0 + c.toNat / 16) + c.toNat % 16 = c.toNat := by omega
  rw [digits]
  show readQuoted quote .plain ('\\' :: 'x' :: d :: e :: '\\' :: rest) = _
  rw [readQuoted_backslash other]
  show readQuoted quote (.code none) (d :: e :: '\\' :: rest) = _
  rw [readQuoted_digit high, readQuoted_digit low, Option.getD_none, Option.getD_some, number, readQuoted_code]

theorem spells_atomChar (c : Char) : Spells '\'' c (atomChar c) := by
  obtain ⟨e, letter, rfl, form⟩ | ⟨slash, quote, form⟩ := atomChar_cases c
  · rw [form]
    exact spells_escaped (by decide) letter
  · rw [form]
    exact spells_plain quote slash

theorem spells_stringChar (c : Char) : Spells '"' c (stringChar c) := by
  obtain ⟨e, letter, rfl, form⟩ | ⟨small, form⟩ | ⟨slash, quote, form⟩ := stringChar_cases c
  · rw [form]
    exact spells_escaped (by decide) letter
  · rw [form]
    exact spells_code (by decide) small
  · rw [form]
    exact spells_plain quote slash

/-- Characters that are spelled one by one are read up to the quote. -/
theorem readQuoted_flatMap {f : Char → List Char} (spells : ∀ c, Spells quote c (f c)) (s rest : List Char) :
    readQuoted quote .plain (s.flatMap f ++ quote :: rest) = some (s, rest) := by
  induction s with
  | nil => rw [List.flatMap_nil, List.nil_append, readQuoted, Place.sense, if_pos rfl]
  | cons c s ih =>
    rw [List.flatMap_cons, List.append_assoc, spells c, ih]
    rfl

/-! ## Names without quotes -/

/-- An ASCII letter, an ASCII digit or an underscore. -/
def InWord (c : Char) : Prop :=
  'A' ≤ c ∧ c ≤ 'Z' ∨ 'a' ≤ c ∧ c ≤ 'z' ∨ '0' ≤ c ∧ c ≤ '9' ∨ c = '_'

instance : DecidablePred InWord := fun _ => inferInstanceAs (Decidable (_ ∨ _))

/-- A lower-case ASCII letter, and then ASCII letters, digits and underscores. -/
def IsIdentifier (name : List Char) : Prop :=
  ∃ c cs, name = c :: cs ∧ ('a' ≤ c ∧ c ≤ 'z') ∧ ∀ d ∈ cs, InWord d

/-- The name of the empty list, of the empty braces, or an identifier. -/
def IsPlainName (name : List Char) : Prop :=
  name = ['[', ']'] ∨ name = ['\x7b', '\x7d'] ∨ IsIdentifier name

theorem isLower_iff_between (c : Char) : c.isLower = true ↔ 'a' ≤ c ∧ c ≤ 'z' := by
  rw [isLower_iff_toNat, Char.le_def, Char.le_def, UInt32.le_iff_toNat_le, UInt32.le_iff_toNat_le]
  rfl

theorem isWordChar_iff (c : Char) : isWordChar c = true ↔ InWord c := by
  have letters : isWordChar c = (c.isUpper || c.isLower || c.isDigit || decide (c = '_')) := rfl
  have upper : c.isUpper = true ↔ 'A' ≤ c ∧ c ≤ 'Z' := by
    rw [isUpper_iff_toNat, Char.le_def, Char.le_def, UInt32.le_iff_toNat_le, UInt32.le_iff_toNat_le]
    rfl
  have digit : c.isDigit = true ↔ '0' ≤ c ∧ c ≤ '9' := by
    rw [isDigit_iff_toNat, Char.le_def, Char.le_def, UInt32.le_iff_toNat_le, UInt32.le_iff_toNat_le]
    rfl
  rw [letters, Bool.or_eq_true, Bool.or_eq_true, Bool.or_eq_true, decide_eq_true_eq, upper, digit,
    isLower_iff_between, or_assoc, or_assoc, InWord]

theorem isBareAtom_iff (name : List Char) : isBareAtom name = true ↔ IsPlainName name := by
  by_cases brackets : name = ['[', ']']
  · subst brackets
    exact ⟨fun _ => .inl rfl, fun _ => rfl⟩
  by_cases braces : name = ['\x7b', '\x7d']
  · subst braces
    exact ⟨fun _ => .inr (.inl rfl), fun _ => rfl⟩
  rw [IsPlainName, or_iff_right brackets, or_iff_right braces, IsIdentifier]
  cases name with
  | nil =>
    constructor
    · intro bare
      cases bare
    · rintro ⟨c, cs, shape, -⟩
      cases shape
  | cons c cs =>
    rw [isBareAtom_cons brackets braces, Bool.and_eq_true, List.all_eq_true, isLower_iff_between]
    simp only [isWordChar_iff]
    constructor
    · exact fun both => ⟨c, cs, rfl, both⟩
    · rintro ⟨d, ds, shape, both⟩
      obtain ⟨rfl, rfl⟩ := List.cons.inj shape
      exact both

/-! ## Tokens -/

/-- The longest word in front of something that is not in words is the whole word. -/
theorem span_word {w rest : List Char} (word : ∀ c ∈ w, InWord c) (apart : ∀ c ∈ rest.head?, ¬InWord c) :
    (w ++ rest).takeWhile isWordChar = w ∧ (w ++ rest).dropWhile isWordChar = rest := by
  have inside : ∀ c ∈ w, isWordChar c = true := fun c among => (isWordChar_iff c).mpr (word c among)
  rw [List.takeWhile_append_of_pos inside, List.dropWhile_append_of_pos inside]
  cases rest with
  | nil => exact ⟨List.append_nil w, rfl⟩
  | cons c cs =>
    have outside : ¬isWordChar c = true := fun within => apart c rfl ((isWordChar_iff c).mp within)
    rw [List.takeWhile_cons_of_neg outside, List.dropWhile_cons_of_neg outside]
    exact ⟨List.append_nil w, rfl⟩

/-- An identifier is read up to the first character that is not in words. -/
theorem readToken_identifier {name rest : List Char} (identifier : IsIdentifier name)
    (apart : ∀ c ∈ rest.head?, ¬InWord c) : readToken (name ++ rest) = some (.atom, name, rest) := by
  obtain ⟨c, cs, rfl, lower, word⟩ := identifier
  obtain ⟨first, others⟩ := span_word word apart
  have small := (isLower_iff_between c).mpr lower
  -- A lower-case letter is none of the characters that the other tokens begin with.
  have other : ∀ d, d.isLower = false → c ≠ d := by
    rintro d large rfl
    exact absurd small (Bool.eq_false_iff.mp large)
  rw [List.cons_append, readToken, if_pos small, first, others]
  · exact other _ rfl
  · exact other _ rfl
  · exact fun _ bracket _ => other _ rfl bracket
  · exact fun _ brace _ => other _ rfl brace

theorem readToken_stringText (s rest : List Char) :
    readToken (stringText s ++ rest) = some (.str, s, rest) := by
  have read := readQuoted_flatMap spells_stringChar s rest
  rw [stringText, List.cons_append, List.cons_append, List.append_assoc, List.singleton_append, readToken, read]
  rfl

theorem readToken_quotedAtom (name rest : List Char) :
    readToken ('\'' :: name.flatMap atomChar ++ ['\''] ++ rest) = some (.atom, name, rest) := by
  have read := readQuoted_flatMap spells_atomChar name rest
  rw [List.cons_append, List.cons_append, List.append_assoc, List.singleton_append, readToken, read]
  rfl

/-- A name without quotes is read if what comes behind it is not in words. -/
theorem readToken_plainName {name rest : List Char} (plain : IsPlainName name)
    (apart : ∀ c ∈ rest.head?, ¬InWord c) : readToken (name ++ rest) = some (.atom, name, rest) := by
  obtain rfl | rfl | identifier := plain
  · rfl
  · rfl
  · exact readToken_identifier identifier apart

theorem atomText_of_plain {name : List Char} (plain : IsPlainName name) : atomText name = name := by
  rw [atomText, if_pos ((isBareAtom_iff name).mpr plain)]

theorem atomText_of_not_plain {name : List Char} (other : ¬IsPlainName name) :
    atomText name = '\'' :: name.flatMap atomChar ++ ['\''] := by
  rw [atomText, if_neg (other ∘ (isBareAtom_iff name).mp)]

/-- A name is not longer than its characters between quotes. -/
theorem length_le_flatMap_atomChar (name : List Char) : name.length ≤ (name.flatMap atomChar).length := by
  induction name with
  | nil => exact Nat.zero_le _
  | cons c name ih =>
    have some : 1 ≤ (atomChar c).length := by
      obtain ⟨e, -, -, form⟩ | ⟨-, -, form⟩ := atomChar_cases c <;> rw [form] <;> simp
    rw [List.flatMap_cons, List.length_append, List.length_cons]
    omega

theorem atomText_eq_self_iff (name : List Char) : atomText name = name ↔ IsPlainName name := by
  refine ⟨fun same => Classical.byContradiction fun other => ?_, atomText_of_plain⟩
  have longer := length_le_flatMap_atomChar name
  have shown := congrArg List.length ((atomText_of_not_plain other).symm.trans same)
  rw [List.length_append, List.length_cons, List.length_singleton] at shown
  omega

/-- Every string is read back from its text, and every name from its own, in front of whatever comes behind
them; only behind a name without quotes the word has to end. The names without quotes are the identifiers and
the two pairs of brackets, and the text of any other name begins and ends with a quote. -/
theorem readToken_written (s rest : List Char) :
    readToken (stringText s ++ rest) = some (.str, s, rest) ∧
    ((IsPlainName s → ∀ c ∈ rest.head?, ¬InWord c) →
      readToken (atomText s ++ rest) = some (.atom, s, rest)) ∧
    (atomText s = s ↔ IsPlainName s) ∧
    (¬IsPlainName s → ∃ inner, atomText s = '\'' :: inner ++ ['\'']) := by
  refine ⟨readToken_stringText s rest, fun apart => ?_, atomText_eq_self_iff s, fun other => ?_⟩
  · by_cases plain : IsPlainName s
    · rw [atomText_of_plain plain]
      exact readToken_plainName plain (apart plain)
    · rw [atomText_of_not_plain plain]
      exact readToken_quotedAtom s rest
  · exact ⟨_, atomText_of_not_plain other⟩

/-- A string with a control character in front of hexadecimal digits, a backslash and a quote, an atom with
a quote, a carriage return and a backslash, and an atom without quotes in front of an argument list. -/
theorem readToken_written_example :
    readToken ("\"\\x01\\41\\\\\\\"\"".toList ++ "\\x41".toList) =
      some (.str, ['\x01', '4', '1', '\\', '"'], "\\x41".toList) ∧
    readToken ("'it\\'s\r\\\\'".toList ++ "s".toList) =
      some (.atom, "it's\r\\".toList, "s".toList) ∧
    readToken ("foo_1".toList ++ "(X)".toList) = some (.atom, "foo_1".toList, "(X)".toList) := by
  have quoted : ¬IsPlainName "it's\r\\".toList := by
    rw [← isBareAtom_iff]
    decide
  have apart : ∀ c ∈ "(X)".toList.head?, ¬InWord c := by
    rintro _ ⟨⟩
    decide
  exact ⟨(readToken_written ['\x01', '4', '1', '\\', '"'] _).1,
    (readToken_written "it's\r\\".toList _).2.1 (fun plain => absurd plain quoted),
    (readToken_written "foo_1".toList _).2.1 fun _ => apart⟩

end PrologWire.Text

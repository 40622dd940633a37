import PrologWire.Text.Quoted

/-!
# Tokens of Prolog text

A token is a word or stands between quotes. A word ends where the text ends or a bracket or comma follows, and
a quoted token at the first quote without a backslash, so what begins with a token tells the token and what
comes behind it.
-/

namespace PrologWire.Text

/-! ## Words -/

/-- The characters behind a word. -/
def endsWord (c : Char) : Bool := c = ',' || c = '(' || c = ')' || c = ']'

/-- Nothing more comes, or what comes does not belong to a word before it. -/
def Apart (rest : List Char) : Prop := ∀ c ∈ rest.head?, endsWord c = true

theorem apart_cons {c : Char} {cs : List Char} (h : endsWord c = true) : Apart (c :: cs) := by
  rintro d ⟨⟩
  exact h

/-- A word is what is in front of the first character that ends it. -/
theorem takeWhile_word {w r : List Char} (word : ∀ c ∈ w, endsWord c = false) (apart : Apart r) :
    (w ++ r).takeWhile (!endsWord ·) = w := by
  have inside : ∀ c ∈ w, (!endsWord c) = true := fun c among => by rw [word c among]; rfl
  have outside : r.takeWhile (!endsWord ·) = [] := by
    cases r with
    | nil => rfl
    | cons c cs =>
      have ends : (!endsWord c) = false := by rw [apart c rfl]; rfl
      rw [List.takeWhile_cons, ends]
      rfl
  rw [List.takeWhile_append_of_pos inside, outside, List.append_nil]

/-- What begins with a word tells the word and the rest. -/
theorem word_append_inj {v w r s : List Char} (left : ∀ c ∈ v, endsWord c = false)
    (right : ∀ c ∈ w, endsWord c = false) (apart : Apart r) (apart' : Apart s) (same : v ++ r = w ++ s) :
    v = w ∧ r = s := by
  have words : v = w := by rw [← takeWhile_word left apart, same, takeWhile_word right apart']
  subst words
  exact ⟨rfl, List.append_cancel_left same⟩

/-! ## Which words there are -/

theorem isUpper_iff_toNat {c : Char} : c.isUpper = true ↔ 65 ≤ c.toNat ∧ c.toNat ≤ 90 := by
  show decide (c.val ≥ 'A'.val ∧ c.val ≤ 'Z'.val) = true ↔ _
  rw [decide_eq_true_eq, ge_iff_le, UInt32.le_iff_toNat_le, UInt32.le_iff_toNat_le]
  rfl

theorem isLower_iff_toNat {c : Char} : c.isLower = true ↔ 97 ≤ c.toNat ∧ c.toNat ≤ 122 := by
  show (decide (c.val ≥ 'a'.val) && decide (c.val ≤ 'z'.val)) = true ↔ _
  rw [Bool.and_eq_true, decide_eq_true_eq, decide_eq_true_eq, ge_iff_le, UInt32.le_iff_toNat_le,
    UInt32.le_iff_toNat_le]
  rfl

theorem isDigit_iff_toNat {c : Char} : c.isDigit = true ↔ 48 ≤ c.toNat ∧ c.toNat ≤ 57 :=
  Char.isDigit_iff_toNat

/-- What ends a word is one of four characters. -/
theorem endsWord_eq_false {c : Char} (other : c.toNat ≠ 44 ∧ c.toNat ≠ 40 ∧ c.toNat ≠ 41 ∧ c.toNat ≠ 93) :
    endsWord c = false := by
  rw [← Bool.not_eq_true]
  intro ends
  simp only [endsWord, Bool.or_eq_true, decide_eq_true_eq] at ends
  obtain ⟨comma, opening, closing, bracket⟩ := other
  obtain ((rfl | rfl) | rfl) | rfl := ends
  · exact comma rfl
  · exact opening rfl
  · exact closing rfl
  · exact bracket rfl

theorem endsWord_of_isWordChar {c : Char} (h : isWordChar c = true) : endsWord c = false := by
  have letters : (c.isUpper || c.isLower || c.isDigit || decide (c = '_')) = true := h
  simp only [Bool.or_eq_true, decide_eq_true_eq, isUpper_iff_toNat, isLower_iff_toNat,
    isDigit_iff_toNat] at letters
  apply endsWord_eq_false
  obtain letter | rfl := letters
  · omega
  · decide

/-- A word has characters, none of which ends it, and does not begin with a quote or a bracket. -/
structure IsWord (w : List Char) : Prop where
  head : ∃ c cs, w = c :: cs ∧ c ≠ '\'' ∧ c ≠ '"' ∧ c ≠ '['
  inside : ∀ c ∈ w, endsWord c = false

/-- The characters of numbers. -/
def isNumeral (c : Char) : Bool := c.isDigit || c = '.' || c = '-'

theorem toNat_of_isNumeral {c : Char} (numeral : isNumeral c = true) : 45 ≤ c.toNat ∧ c.toNat ≤ 57 := by
  simp only [isNumeral, Bool.or_eq_true, decide_eq_true_eq, isDigit_iff_toNat] at numeral
  obtain (digit | rfl) | rfl := numeral
  · omega
  · decide
  · decide

/-- A number is a word. -/
theorem isWord_of_isNumeral {w : List Char} (some : w ≠ []) (numerals : ∀ c ∈ w, isNumeral c = true) :
    IsWord w := by
  constructor
  · obtain ⟨c, cs, rfl⟩ := List.exists_cons_of_ne_nil some
    have first := numerals c List.mem_cons_self
    refine ⟨c, cs, rfl, ?_, ?_, ?_⟩ <;> rintro rfl <;> exact absurd first (by decide)
  · intro c among
    have bounds := toNat_of_isNumeral (numerals c among)
    exact endsWord_eq_false (by omega)

/-- An upper-case letter or an underscore, and then letters, digits and underscores. Characters outside ASCII
count as letters. -/
def IsVariableName (name : List Char) : Prop :=
  ∃ c cs, name = c :: cs ∧ (c.isUpper = true ∨ c = '_' ∨ 128 ≤ c.toNat) ∧
    ∀ d ∈ cs, isWordChar d = true ∨ 128 ≤ d.toNat

/-- The first character of the name of a variable. -/
theorem toNat_of_opensVariable {c : Char} (first : c.isUpper = true ∨ c = '_' ∨ 128 ≤ c.toNat) :
    65 ≤ c.toNat ∧ c.toNat ≤ 90 ∨ c.toNat = 95 ∨ 128 ≤ c.toNat := by
  rw [isUpper_iff_toNat] at first
  obtain upper | rfl | other := first
  · exact .inl upper
  · exact .inr (.inl rfl)
  · exact .inr (.inr other)

/-- The name of a variable is a word. -/
theorem isWord_of_isVariableName {name : List Char} (h : IsVariableName name) : IsWord name := by
  obtain ⟨c, cs, rfl, first, rest⟩ := h
  have code := toNat_of_opensVariable first
  constructor
  · refine ⟨c, cs, rfl, ?_, ?_, ?_⟩ <;> rintro rfl <;> revert code <;> decide
  · intro d among
    rcases List.mem_cons.mp among with rfl | behind
    · exact endsWord_eq_false (by omega)
    · rcases rest d behind with letter | other
      · exact endsWord_of_isWordChar letter
      · exact endsWord_eq_false (by omega)

theorem isBareAtom_cons {c : Char} {cs : List Char} (brackets : c :: cs ≠ ['[', ']'])
    (braces : c :: cs ≠ ['\x7b', '\x7d']) : isBareAtom (c :: cs) = (c.isLower && cs.all isWordChar) := by
  rw [isBareAtom]
  · rintro rfl rfl
    exact brackets rfl
  · rintro rfl rfl
    exact braces rfl

/-- An atom without quotes is `[]`, or a word that begins with a lower-case letter or a brace. -/
theorem bareAtom_cases {name : List Char} (bare : isBareAtom name = true) : name = ['[', ']'] ∨
    (IsWord name ∧ ∃ c cs, name = c :: cs ∧ (c.isLower = true ∨ c = '\x7b')) := by
  by_cases brackets : name = ['[', ']']
  · exact .inl brackets
  by_cases braces : name = ['\x7b', '\x7d']
  · subst braces
    have inside : ∀ c ∈ ['\x7b', '\x7d'], endsWord c = false :=
      List.forall_mem_cons.mpr ⟨rfl, List.forall_mem_singleton.mpr rfl⟩
    exact .inr ⟨⟨⟨_, _, rfl, by decide, by decide, by decide⟩, inside⟩, _, _, rfl, .inr rfl⟩
  cases name with
  | nil => cases bare
  | cons c cs =>
    rw [isBareAtom_cons brackets braces, Bool.and_eq_true, List.all_eq_true] at bare
    obtain ⟨lower, rest⟩ := bare
    have code := isLower_iff_toNat.mp lower
    refine .inr ⟨⟨⟨c, cs, rfl, ?_, ?_, ?_⟩, ?_⟩, c, cs, rfl, .inl lower⟩
    · rintro rfl
      cases lower
    · rintro rfl
      cases lower
    · rintro rfl
      cases lower
    · intro d among
      rcases List.mem_cons.mp among with rfl | behind
      · exact endsWord_eq_false (by omega)
      · exact endsWord_of_isWordChar (rest d behind)

/-! ## Quoted tokens -/

/-- The character that a letter behind a backslash stands for. -/
def unescaped (e : Char) : Char :=
  if e = 'n' then '\n' else if e = 'r' then '\r' else if e = 't' then '\t' else e

/-- The forms of a character between quotes. -/
inductive Escaped (quote c : Char) : List Char → Prop where
  | plain : c ≠ '\\' → c ≠ quote → Escaped quote c [c]
  | letter (e : Char) : e ≠ 'x' → c = unescaped e → Escaped quote c ['\\', e]
  | code : c.toNat < 160 → Escaped quote c ('\\' :: 'x' :: hexUpper 2 c.toNat ++ ['\\'])

/-- The characters that have a meaning behind a backslash, but for the one that begins a code. -/
def escapeLetters : List Char := ['n', 'r', 't', '\\', '\'', '"']

theorem ne_x_of_mem_escapeLetters {e : Char} (letter : e ∈ escapeLetters) : e ≠ 'x' := by
  rintro rfl
  simp [escapeLetters] at letter

/-- A character of a quoted atom stands behind a backslash or as it is. -/
theorem atomChar_cases (c : Char) :
    (∃ e ∈ escapeLetters, c = unescaped e ∧ atomChar c = ['\\', e]) ∨
      c ≠ '\\' ∧ c ≠ '\'' ∧ atomChar c = [c] := by
  by_cases quote : c = '\''
  · subst quote
    exact .inl ⟨'\'', by simp [escapeLetters], rfl, rfl⟩
  by_cases slash : c = '\\'
  · subst slash
    exact .inl ⟨'\\', by simp [escapeLetters], rfl, rfl⟩
  by_cases newline : c = '\n'
  · subst newline
    exact .inl ⟨'n', by simp [escapeLetters], rfl, rfl⟩
  by_cases tab : c = '\t'
  · subst tab
    exact .inl ⟨'t', by simp [escapeLetters], rfl, rfl⟩
  refine .inr ⟨slash, quote, ?_⟩
  rw [atomChar] <;> assumption

/-- So does a character of a string, unless its code is written. -/
theorem stringChar_cases (c : Char) :
    (∃ e ∈ escapeLetters, c = unescaped e ∧ stringChar c = ['\\', e]) ∨
      (c.toNat < 160 ∧ stringChar c = '\\' :: 'x' :: hexUpper 2 c.toNat ++ ['\\']) ∨
      c ≠ '\\' ∧ c ≠ '"' ∧ stringChar c = [c] := by
  by_cases slash : c = '\\'
  · subst slash
    exact .inl ⟨'\\', by simp [escapeLetters], rfl, rfl⟩
  by_cases quote : c = '"'
  · subst quote
    exact .inl ⟨'"', by simp [escapeLetters], rfl, rfl⟩
  by_cases newline : c = '\n'
  · subst newline
    exact .inl ⟨'n', by simp [escapeLetters], rfl, rfl⟩
  by_cases feed : c = '\r'
  · subst feed
    exact .inl ⟨'r', by simp [escapeLetters], rfl, rfl⟩
  by_cases tab : c = '\t'
  · subst tab
    exact .inl ⟨'t', by simp [escapeLetters], rfl, rfl⟩
  have others : stringChar c = if isControl c then '\\' :: 'x' :: hexUpper 2 c.toNat ++ ['\\'] else [c] := by
    rw [stringChar] <;> assumption
  rw [others]
  split
  · next control =>
    refine .inr (.inl ⟨?_, rfl⟩)
    simp only [isControl, Bool.or_eq_true, Bool.and_eq_true, decide_eq_true_eq] at control
    omega
  · exact .inr (.inr ⟨slash, quote, rfl⟩)

theorem escaped_atomChar (c : Char) : Escaped '\'' c (atomChar c) := by
  obtain ⟨e, letter, meaning, form⟩ | ⟨slash, quote, form⟩ := atomChar_cases c
  · rw [form]
    exact .letter e (ne_x_of_mem_escapeLetters letter) meaning
  · rw [form]
    exact .plain slash quote

theorem escaped_stringChar (c : Char) : Escaped '"' c (stringChar c) := by
  obtain ⟨e, letter, meaning, form⟩ | ⟨small, form⟩ | ⟨slash, quote, form⟩ := stringChar_cases c
  · rw [form]
    exact .letter e (ne_x_of_mem_escapeLetters letter) meaning
  · rw [form]
    exact .code small
  · rw [form]
    exact .plain slash quote

/-- The number that upper-case hexadecimal digits denote. -/
def hexValue (cs : List Char) : Nat :=
  cs.foldl (fun n c => 16 * n + if c.isDigit then c.toNat - '0'.toNat else c.toNat - 'A'.toNat + 10) 0

/-- Two hexadecimal digits tell a number below 160. -/
theorem hexUpper_append_inj {m n : Nat} {x y : List Char} (left : m < 160) (right : n < 160)
    (same : hexUpper 2 m ++ x = hexUpper 2 n ++ y) : m = n ∧ x = y := by
  have digits : ∀ k < 160, (hexUpper 2 k).length = 2 ∧ hexValue (hexUpper 2 k) = k := by decide +kernel
  obtain ⟨texts, rest⟩ := List.append_inj same ((digits m left).1.trans (digits n right).1.symm)
  have values := congrArg hexValue texts
  rw [(digits m left).2, (digits n right).2] at values
  exact ⟨values, rest⟩

/-- What begins with an escaped character tells the character and the rest. -/
theorem Escaped.append_inj {q c d : Char} {u v x y : List Char} (left : Escaped q c u)
    (right : Escaped q d v) (same : u ++ x = v ++ y) : c = d ∧ x = y := by
  cases left with
  | plain slash _ =>
    cases right with
    | plain => exact List.cons.inj same
    | letter | code => exact absurd (List.cons.inj same).1 slash
  | letter e other meaning =>
    cases right with
    | plain slash _ => exact absurd (List.cons.inj same).1.symm slash
    | letter e' _ meaning' =>
      obtain ⟨letters, rest⟩ := List.cons.inj (List.cons.inj same).2
      exact ⟨by rw [meaning, meaning', letters], rest⟩
    | code => exact absurd (List.cons.inj (List.cons.inj same).2).1 other
  | code small =>
    cases right with
    | plain slash _ => exact absurd (List.cons.inj same).1.symm slash
    | letter e other _ => exact absurd (List.cons.inj (List.cons.inj same).2).1.symm other
    | code small' =>
      simp only [List.cons_append, List.append_assoc] at same
      have behind := (List.cons.inj (List.cons.inj same).2).2
      obtain ⟨codes, rest⟩ := hexUpper_append_inj small small' behind
      exact ⟨Char.toNat_inj.mp codes, (List.cons.inj rest).2⟩

/-- An escaped character is not the closing quote. -/
theorem Escaped.append_ne {q c : Char} {u x y : List Char} (h : Escaped q c u) (other : q ≠ '\\') :
    u ++ x ≠ q :: y := by
  intro same
  cases h with
  | plain _ inside => exact inside (List.cons.inj same).1
  | letter | code => exact other (List.cons.inj same).1.symm

/-- What begins with characters up to a quote tells the characters and the rest. -/
theorem escaped_append_inj {q : Char} {f : Char → List Char} (forms : ∀ c, Escaped q c (f c))
    (other : q ≠ '\\') {s t x y : List Char} (same : s.flatMap f ++ q :: x = t.flatMap f ++ q :: y) :
    s = t ∧ x = y := by
  induction s generalizing t with
  | nil =>
    cases t with
    | nil => exact ⟨rfl, (List.cons.inj same).2⟩
    | cons d t =>
      rw [List.flatMap_cons, List.append_assoc] at same
      exact absurd same.symm ((forms d).append_ne other)
  | cons c s ih =>
    rw [List.flatMap_cons, List.append_assoc] at same
    cases t with
    | nil => exact absurd same ((forms c).append_ne other)
    | cons d t =>
      rw [List.flatMap_cons, List.append_assoc] at same
      obtain ⟨rfl, behind⟩ := (forms c).append_inj (forms d) same
      obtain ⟨rfl, rest⟩ := ih behind
      exact ⟨rfl, rest⟩

/-- What begins with a string tells the string and the rest. -/
theorem stringText_append_inj {s t x y : List Char} (same : stringText s ++ x = stringText t ++ y) :
    s = t ∧ x = y := by
  simp only [stringText, List.cons_append, List.append_assoc] at same
  exact escaped_append_inj escaped_stringChar (by decide) (List.cons.inj same).2

/-- So it is with a quoted atom. -/
theorem quotedAtom_append_inj {s t x y : List Char}
    (same : '\'' :: s.flatMap atomChar ++ ['\''] ++ x = '\'' :: t.flatMap atomChar ++ ['\''] ++ y) :
    s = t ∧ x = y := by
  simp only [List.cons_append, List.append_assoc] at same
  exact escaped_append_inj escaped_atomChar (by decide) (List.cons.inj same).2

/-! ## Tokens -/

/-- A word does not begin as any other token does. -/
theorem IsWord.append_ne {w x y : List Char} {c : Char} (word : IsWord w)
    (mark : c = '\'' ∨ c = '"' ∨ c = '[') : w ++ x ≠ c :: y := by
  obtain ⟨d, ds, rfl, single, double, bracket⟩ := word.head
  intro same
  obtain rfl := (List.cons.inj same).1
  obtain quote | quote | opening := mark
  · exact single quote
  · exact double quote
  · exact bracket opening

/-- A word, the empty list, or what stands between quotes. -/
inductive Token : List Char → Prop where
  | word {w : List Char} : IsWord w → Token w
  | brackets : Token ['[', ']']
  | quoted (name : List Char) : Token ('\'' :: name.flatMap atomChar ++ ['\''])
  | string (s : List Char) : Token (stringText s)

/-- A token has characters, the first of which does not end a word. -/
theorem Token.head {u : List Char} (token : Token u) : ∃ c cs, u = c :: cs ∧ endsWord c = false := by
  cases token with
  | word word =>
    obtain ⟨c, cs, rfl, -⟩ := word.head
    exact ⟨c, cs, rfl, word.inside c List.mem_cons_self⟩
  | brackets => exact ⟨_, _, rfl, by decide⟩
  | quoted name => exact ⟨_, _, rfl, by decide⟩
  | string s => exact ⟨_, _, rfl, by decide⟩

/-- What begins with a token tells the token and the rest. -/
theorem Token.append_inj {u v r s : List Char} (left : Token u) (right : Token v) (apart : Apart r)
    (apart' : Apart s) (same : u ++ r = v ++ s) : u = v ∧ r = s := by
  cases left with
  | word word =>
    cases right with
    | word word' => exact word_append_inj word.inside word'.inside apart apart' same
    | brackets => exact absurd same (word.append_ne (.inr (.inr rfl)))
    | quoted => exact absurd same (word.append_ne (.inl rfl))
    | string => exact absurd same (word.append_ne (.inr (.inl rfl)))
  | brackets =>
    cases right with
    | word word => exact absurd same.symm (word.append_ne (.inr (.inr rfl)))
    | brackets => exact ⟨rfl, List.append_cancel_left same⟩
    | quoted | string => exact absurd (List.cons.inj same).1 (by decide)
  | quoted name =>
    cases right with
    | word word => exact absurd same.symm (word.append_ne (.inl rfl))
    | brackets | string => exact absurd (List.cons.inj same).1 (by decide)
    | quoted name' =>
      obtain ⟨rfl, rest⟩ := quotedAtom_append_inj same
      exact ⟨rfl, rest⟩
  | string text =>
    cases right with
    | word word => exact absurd same.symm (word.append_ne (.inr (.inl rfl)))
    | brackets | quoted => exact absurd (List.cons.inj same).1 (by decide)
    | string text' =>
      obtain ⟨rfl, rest⟩ := stringText_append_inj same
      exact ⟨rfl, rest⟩

/-- The text of an atom is a token. -/
theorem token_atomText (name : List Char) : Token (atomText name) := by
  unfold atomText
  split
  · next bare =>
    rcases bareAtom_cases bare with rfl | ⟨word, -⟩
    · exact .brackets
    · exact .word word
  · exact .quoted name

/-- An atom without quotes does not begin with one. -/
theorem bareAtom_ne_quoted {name x y : List Char} (bare : isBareAtom name = true) :
    name ++ x ≠ '\'' :: y := by
  rcases bareAtom_cases bare with rfl | ⟨word, -⟩
  · intro same
    exact absurd (List.cons.inj same).1 (by decide)
  · exact word.append_ne (.inl rfl)

/-- The text of an atom tells its name. -/
theorem atomText_inj {x y : List Char} (same : atomText x = atomText y) : x = y := by
  have ended := congrArg (· ++ ([] : List Char)) same
  unfold atomText at ended
  by_cases bare : isBareAtom x = true
  · by_cases bare' : isBareAtom y = true
    · rw [atomText, atomText, if_pos bare, if_pos bare'] at same
      exact same
    · rw [if_pos bare, if_neg bare'] at ended
      exact absurd ended (bareAtom_ne_quoted bare)
  · by_cases bare' : isBareAtom y = true
    · rw [if_neg bare, if_pos bare'] at ended
      exact absurd ended.symm (bareAtom_ne_quoted bare')
    · rw [if_neg bare, if_neg bare'] at ended
      exact (quotedAtom_append_inj ended).1

/-- What begins with an atom tells its name and the rest. -/
theorem atomText_append_inj {x y r s : List Char} (apart : Apart r) (apart' : Apart s)
    (same : atomText x ++ r = atomText y ++ s) : x = y ∧ r = s := by
  obtain ⟨texts, rest⟩ := (token_atomText x).append_inj (token_atomText y) apart apart' same
  exact ⟨atomText_inj texts, rest⟩

/-- An atom other than `[]` does not begin with a bracket. -/
theorem atomText_append_ne {name x y : List Char} (other : name ≠ ['[', ']']) :
    atomText name ++ x ≠ '[' :: y := by
  unfold atomText
  split
  · next bare =>
    rcases bareAtom_cases bare with brackets | ⟨word, -⟩
    · exact absurd brackets other
    · exact word.append_ne (.inr (.inr rfl))
  · intro same
    exact absurd (List.cons.inj same).1 (by decide)

end PrologWire.Text

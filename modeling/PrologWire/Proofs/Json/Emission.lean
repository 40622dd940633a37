import PrologWire.Proofs.Arena.Building
import PrologWire.Proofs.Json.Grammar
import PrologWire.Proofs.Text.Integers

/-!
# What is emitted for a JSON value

`Value.Describes` is the grammar as a relation: a value, the term it denotes and the calls for it. Of a
value that is not in the grammar `Value.Breaks` has the calls before the first offending part, in the order
in which the text is read. Which texts stand for integers is a parameter of both. Every value is one or the
other, and emission with a reader that recognizes these texts makes exactly these calls.
-/

namespace PrologWire

namespace Json.Value

/-! ## The grammar -/

/-- The members are those of a compound: a functor, perhaps an array of arguments, and nothing else. -/
structure IsCompound (members : List (String × Value)) (functor : String) (items : List Value) :
    Prop where
  functor : member? "func" members = some (string functor)
  args : member? "args" members = some (array items) ∨ member? "args" members = none ∧ items = []
  only : ∀ m ∈ members, m.1 = "func" ∨ m.1 = "args"

mutual

/-- The value denotes the term, and these are the calls for it from the left to the right. -/
inductive Describes (spells : List Char → Int → Prop) : Value → Term String → List Call → Prop where
  | number (n : Number) : Describes spells (number n) n.term [n.call]
  | string (s : String) : Describes spells (string s) (.atom s) [.atom s]
  | emptyArray : Describes spells (array []) (.list []) [.emptyList]
  | array {items : List Value} {ts : List (Term String)} {cs : List Call} : items ≠ [] →
    DescribeAll spells items ts cs →
    Describes spells (array items) (.list ts) (.openList :: (cs ++ [.closeList]))
  | var (name : String) : Describes spells (object [("var", string name)]) (.var name) [.var name]
  | atom (name : String) : Describes spells (object [("atom", string name)]) (.atom name) [.atom name]
  | intText {text : String} {value : Int} : spells text.toList value →
    Describes spells (object [("int", string text)]) (.integer value) [.bigint value]
  | intNumber (value : Int) :
    Describes spells (object [("int", number (.integer value))]) (.integer value)
      [(Number.integer value).call]
  | float (n : Number) :
    Describes spells (object [("float", number n)]) (.float n.toReal) [.float n.toReal]
  | name {members : List (String × Value)} {functor : String} : IsCompound members functor [] →
    Describes spells (object members) (.atom functor) [.atom functor]
  | compound {members : List (String × Value)} {functor : String} {items : List Value}
    {ts : List (Term String)} {cs : List Call} : IsCompound members functor items → items ≠ [] →
    DescribeAll spells items ts cs →
    Describes spells (object members) (.compound functor ts) (.openTerm functor :: (cs ++ [.closeTerm]))

/-- The values denote the terms, and these are the calls for one after the other. -/
inductive DescribeAll (spells : List Char → Int → Prop) :
    List Value → List (Term String) → List Call → Prop where
  | nil : DescribeAll spells [] [] []
  | cons {v : Value} {t : Term String} {cs : List Call} {rest : List Value} {ts : List (Term String)}
    {cs' : List Call} : Describes spells v t cs → DescribeAll spells rest ts cs' →
    DescribeAll spells (v :: rest) (t :: ts) (cs ++ cs')

end

/-- The value looks like one of the grammar, whatever its parts are. -/
inductive Shaped (spells : List Char → Int → Prop) : Value → Prop where
  | number (n : Number) : Shaped spells (number n)
  | string (s : String) : Shaped spells (string s)
  | array (items : List Value) : Shaped spells (array items)
  | var (name : String) : Shaped spells (object [("var", string name)])
  | atom (name : String) : Shaped spells (object [("atom", string name)])
  | intText {text : String} {value : Int} : spells text.toList value →
    Shaped spells (object [("int", string text)])
  | intNumber (value : Int) : Shaped spells (object [("int", number (.integer value))])
  | float (n : Number) : Shaped spells (object [("float", number n)])
  | compound {members : List (String × Value)} {functor : String} {items : List Value} :
    IsCompound members functor items → Shaped spells (object members)

mutual

/-- Something in the value offends, and these are the calls for what stands before it. -/
inductive Breaks (spells : List Char → Int → Prop) : Value → List Call → Prop where
  | here {v : Value} : ¬Shaped spells v → Breaks spells v []
  | array {items : List Value} {cs : List Call} : BreaksIn spells items cs →
    Breaks spells (array items) (.openList :: cs)
  | compound {members : List (String × Value)} {functor : String} {items : List Value}
    {cs : List Call} : IsCompound members functor items → BreaksIn spells items cs →
    Breaks spells (object members) (.openTerm functor :: cs)

/-- Something in one of the values offends, and these are the calls for what stands before it. -/
inductive BreaksIn (spells : List Char → Int → Prop) : List Value → List Call → Prop where
  | first {v : Value} {cs : List Call} (rest : List Value) : Breaks spells v cs →
    BreaksIn spells (v :: rest) cs
  | later {v : Value} {t : Term String} {cs : List Call} {rest : List Value} {cs' : List Call} :
    Describes spells v t cs → BreaksIn spells rest cs' → BreaksIn spells (v :: rest) (cs ++ cs')

end

/-! ## What values come to -/

variable {read : Text.IntegerReader} {spells : List Char → Int → Prop}

section

variable {members : List (String × Value)} {functor : String} {items : List Value} {v : Value}

/-- The arguments of a compound are an array, or there are none. -/
theorem arguments_eq_ok_iff : arguments members = .ok items ↔
    member? "args" members = some (array items) ∨ member? "args" members = none ∧ items = [] := by
  unfold arguments
  rcases member? "args" members with _ | found
  · simp [eq_comm]
  · cases found <;> simp

/-- What a compound comes to. -/
theorem IsCompound.level_eq (h : IsCompound members functor items) :
    (object members).level read =
      .ok (if items.isEmpty then .leaf (.atom functor) else .compound functor items) := by
  have only : onlyCompoundKeys members = true := by
    apply List.all_eq_true.mpr
    intro m among
    simpa using h.only m among
  rw [level, objectLevel.eq_def, h.functor, arguments_eq_ok_iff.mpr h.args, only]
  cases items <;> rfl

/-- A tag with a value that does not go with it is refused. -/
theorem exists_tagged_eq_error (reads : Text.Recognizes read spells) {key : String} {value : Value}
    (shapeless : ¬Shaped spells (object [(key, value)])) :
    ∃ cause, tagged key value read = .error cause := by
  fun_cases tagged key value read with
  | case1 name => exact absurd (.var name) shapeless
  | case2 name => exact absurd (.atom name) shapeless
  | case3 digits i taken => exact absurd (.intText ((reads _ i).mp taken)) shapeless
  | case4 digits unread => exact ⟨_, rfl⟩
  | case5 i => exact absurd (.intNumber i) shapeless
  | case6 n => exact absurd (.float n) shapeless
  | case7 => exact ⟨_, rfl⟩

/-- A value that looks like none of the grammar is refused. -/
theorem exists_level_eq_error (reads : Text.Recognizes read spells) (shapeless : ¬Shaped spells v) :
    ∃ cause, v.level read = .error cause := by
  cases v with
  | null => exact ⟨_, rfl⟩
  | bool b => exact ⟨_, rfl⟩
  | number n => exact absurd (.number n) shapeless
  | string s => exact absurd (.string s) shapeless
  | array items => exact absurd (.array items) shapeless
  | object members =>
    rw [level, objectLevel.eq_def]
    cases found : member? "func" members with
    | none =>
      rcases members with _ | ⟨⟨key, value⟩, _ | ⟨second, rest⟩⟩
      · exact ⟨_, rfl⟩
      · obtain ⟨cause, refused⟩ := exists_tagged_eq_error reads shapeless
        exact ⟨cause, by dsimp only; rw [refused]⟩
      · exact ⟨_, rfl⟩
    | some value =>
      cases value with
      | string functor =>
        dsimp only
        cases taken : arguments members with
        | error cause => exact ⟨_, rfl⟩
        | ok items =>
          cases only : onlyCompoundKeys members with
          | false => exact ⟨_, rfl⟩
          | true =>
            refine absurd (.compound ⟨found, arguments_eq_ok_iff.mp taken, ?_⟩) shapeless
            intro m among
            simpa using List.all_eq_true.mp only m among
      | _ => exact ⟨_, rfl⟩

end

/-! ## The calls that are made -/

mutual

/-- The calls of a value in the grammar are made. -/
theorem script_of_describes (reads : Text.Recognizes read spells) :
    ∀ {v : Value} {t : Term String} {cs : List Call}, Describes spells v t cs → v.script read = ⟨cs, none⟩
  | _, _, _, .number _ | _, _, _, .string _ | _, _, _, .emptyArray | _, _, _, .var _
  | _, _, _, .atom _ | _, _, _, .intNumber _ | _, _, _, .float _ => rfl
  | _, _, _, .intText spelled => by
    have taken := (reads _ _).mpr spelled
    show callOrRefuse (tagged "int" (string _) read) = _
    rw [tagged, taken]
    rfl
  | _, _, _, .array filled parts => by
    rw [script, scriptAll_of_describeAll reads parts]
    · rfl
    · exact filled
  | _, _, _, .name shape => by
    rw [script_eq_levelScript, shape.level_eq]
    rfl
  | _, _, _, .compound shape filled parts => by
    rw [script_eq_levelScript, shape.level_eq, if_neg (by simpa using filled), levelScript,
      scriptAll_of_describeAll reads parts]
    rfl

theorem scriptAll_of_describeAll (reads : Text.Recognizes read spells) :
    ∀ {vs : List Value} {ts : List (Term String)} {cs : List Call},
    DescribeAll spells vs ts cs → scriptAll vs read = ⟨cs, none⟩
  | _, _, _, .nil => rfl
  | _, _, _, .cons first others => by
    rw [scriptAll, script_of_describes reads first, scriptAll_of_describeAll reads others]
    rfl

end

mutual

/-- The calls before the first offending part are made, and then the value is refused. -/
theorem script_of_breaks (reads : Text.Recognizes read spells) : ∀ {v : Value} {cs : List Call},
    Breaks spells v cs → ∃ cause, v.script read = ⟨cs, some (.json cause)⟩
  | _, _, .here shapeless => by
    obtain ⟨cause, refused⟩ := exists_level_eq_error reads shapeless
    exact ⟨cause, by rw [script_eq_levelScript, refused]; rfl⟩
  | _, _, .array parts => by
    obtain ⟨cause, script⟩ := scriptAll_of_breaksIn reads parts
    refine ⟨cause, ?_⟩
    rw [Value.script, script]
    · rfl
    · rintro rfl
      cases parts
  | _, _, .compound shape parts => by
    obtain ⟨cause, script⟩ := scriptAll_of_breaksIn reads parts
    refine ⟨cause, ?_⟩
    rw [script_eq_levelScript, shape.level_eq, if_neg, levelScript, script]
    · rfl
    · intro none
      rw [List.isEmpty_iff.mp none] at parts
      cases parts

theorem scriptAll_of_breaksIn (reads : Text.Recognizes read spells) :
    ∀ {vs : List Value} {cs : List Call},
    BreaksIn spells vs cs → ∃ cause, scriptAll vs read = ⟨cs, some (.json cause)⟩
  | _, _, .first rest broken => by
    obtain ⟨cause, script⟩ := script_of_breaks reads broken
    exact ⟨cause, by rw [scriptAll, script]; rfl⟩
  | _, _, .later first others => by
    obtain ⟨cause, script⟩ := scriptAll_of_breaksIn reads others
    exact ⟨cause, by rw [scriptAll, script_of_describes reads first, script]; rfl⟩

end

/-! ## The terms that are described -/

mutual

/-- Following the calls of a value in the grammar adds its term. -/
theorem denotes_of_describes : ∀ {v : Value} {t : Term String} {cs : List Call},
    Describes spells v t cs → (⟨cs, none⟩ : Script).Denotes (some [t])
  | _, _, _, .number n => denotes_number n
  | _, _, _, .intNumber value => denotes_number (.integer value)
  | _, _, _, .string _ | _, _, _, .emptyArray | _, _, _, .var _ | _, _, _, .atom _
  | _, _, _, .intText _ | _, _, _, .float _ | _, _, _, .name _ =>
    Script.denotes_call fun _ => rfl
  | _, _, _, .array _ parts => (denotes_of_describeAll parts).list
  | _, _, _, .compound _ _ parts => (denotes_of_describeAll parts).compound _

theorem denotes_of_describeAll : ∀ {vs : List Value} {ts : List (Term String)} {cs : List Call},
    DescribeAll spells vs ts cs → (⟨cs, none⟩ : Script).Denotes (some ts)
  | _, _, _, .nil => Script.denotes_empty
  | _, _, _, .cons first others => (denotes_of_describes first).append (denotes_of_describeAll others)

end

mutual

/-- The calls before an offending part can be followed, whatever stands before them. -/
theorem exists_follow_of_breaks : ∀ {v : Value} {cs : List Call}, Breaks spells v cs →
    ∀ o : Outline String, ∃ o', o.follow cs = some o'
  | _, _, .here _, o => ⟨o, rfl⟩
  | _, _, .array parts, o => exists_follow_of_breaksIn parts (o.push (.list []))
  | _, _, .compound _ parts, o => exists_follow_of_breaksIn parts (o.push (.compound _ []))

theorem exists_follow_of_breaksIn : ∀ {vs : List Value} {cs : List Call}, BreaksIn spells vs cs →
    ∀ o : Outline String, ∃ o', o.follow cs = some o'
  | _, _, .first _ broken, o => exists_follow_of_breaks broken o
  | _, _, .later first others, o => by
    obtain ⟨o', follows⟩ := exists_follow_of_breaksIn others ([_].foldl .add o)
    refine ⟨o', ?_⟩
    rw [Outline.follow_append, (denotes_of_describes first).2 o]
    exact follows

end

/-! ## Every value is one or the other -/

/-- The parts are all in the grammar, or one of them is the first that is not. -/
def Decided (spells : List Char → Int → Prop) (items : List Value) : Prop :=
  (∃ ts cs, DescribeAll spells items ts cs) ∨ ∃ cs, BreaksIn spells items cs

/-- An object is in the grammar or not, if this is so of what may be its arguments. -/
theorem describes_or_breaks_object {members : List (String × Value)}
    (args : ∀ items, member? "args" members = some (array items) → Decided spells items) :
    (∃ t cs, Describes spells (object members) t cs) ∨ ∃ cs, Breaks spells (object members) cs := by
  by_cases shaped : Shaped spells (object members)
  · cases shaped with
    | var name => exact .inl ⟨_, _, .var name⟩
    | atom name => exact .inl ⟨_, _, .atom name⟩
    | intText decimal => exact .inl ⟨_, _, .intText decimal⟩
    | intNumber value => exact .inl ⟨_, _, .intNumber value⟩
    | float n => exact .inl ⟨_, _, .float n⟩
    | @compound _ functor items shape =>
      -- without arguments nothing is left that could offend
      by_cases none : items = []
      · subst none
        exact .inl ⟨_, _, .name shape⟩
      · rcases shape.args with found | ⟨-, empty⟩
        · rcases args items found with ⟨ts, cs, parts⟩ | ⟨cs, parts⟩
          · exact .inl ⟨_, _, .compound shape none parts⟩
          · exact .inr ⟨_, .compound shape parts⟩
        · exact absurd empty none
  · exact .inr ⟨_, .here shaped⟩

mutual

/-- A value is in the grammar, or something in it offends. -/
theorem describes_or_breaks (v : Value) :
    (∃ t cs, Describes spells v t cs) ∨ ∃ cs, Breaks spells v cs := by
  match v with
  | null => exact .inr ⟨_, .here nofun⟩
  | bool _ => exact .inr ⟨_, .here nofun⟩
  | number n => exact .inl ⟨_, _, .number n⟩
  | string s => exact .inl ⟨_, _, .string s⟩
  | array [] => exact .inl ⟨_, _, .emptyArray⟩
  | array (v :: rest) =>
    rcases decided (v :: rest) with ⟨ts, cs, parts⟩ | ⟨cs, parts⟩
    · exact .inl ⟨_, _, .array (List.cons_ne_nil v rest) parts⟩
    · exact .inr ⟨_, .array parts⟩
  | object members =>
    refine describes_or_breaks_object fun items found => ?_
    have smaller : 1 + sizeOf items < sizeOf members := by simpa using sizeOf_of_member? found
    exact decided items
termination_by sizeOf v

theorem decided (vs : List Value) : Decided spells vs := by
  match vs with
  | [] => exact .inl ⟨_, _, .nil⟩
  | v :: rest =>
    rcases describes_or_breaks v with ⟨t, cs, first⟩ | ⟨cs, broken⟩
    · rcases decided rest with ⟨ts, cs', others⟩ | ⟨cs', others⟩
      · exact .inl ⟨_, _, .cons first others⟩
      · exact .inr ⟨_, .later first others⟩
    · exact .inr ⟨_, .first rest broken⟩
termination_by sizeOf vs

end

/-! ## What is emitted -/

variable {a : Arena} {v : Value} {t : Term String} {cs : List Call}

/-- A value of the grammar is built. -/
theorem Describes.toTerm (reads : Text.Recognizes read spells) (h : Describes spells v t cs)
    (orderly : a.Orderly) (distinct : a.ids.Nodup) :
    ∃ k b, v.toTerm a read = (.ok k, b) ∧ (b.IsSmall → b.tree k = t.tree) := by
  obtain ⟨ts, b, terms, run, here⟩ | ⟨cause, b, -, -, refused⟩ :=
    (denotes_of_describes h).run_cases (Builder.keepsUp a orderly distinct) (Builder.at_new a)
  · obtain rfl := Option.some.inj terms
    obtain ⟨k, stops, stored⟩ := Builder.At.fullStop_ok here
    refine ⟨k, b.arena, ?_, stored.tree_eq (here.grows.orderly orderly)⟩
    rw [toTerm_eq_sentenceTerm_run, script_of_describes reads h, run, sentenceTerm]
    dsimp only
    rw [stops]
  · cases refused [t] rfl

/-- A value in which something offends is not built, and the failure is that of the value. -/
theorem Breaks.toTerm (h : Breaks spells v cs) {cause : JsonError}
    (script : v.script read = ⟨cs, some (.json cause)⟩) (orderly : a.Orderly) (distinct : a.ids.Nodup) :
    ∃ b, v.toTerm a read = (.error (.json cause), b) := by
  -- the builder keeps up with the calls before the offending part, so the failure is not its own
  obtain ⟨o, follows⟩ := exists_follow_of_breaks h .empty
  obtain ⟨_, b, -, run, -⟩ | ⟨_, _, -, -, refused⟩ :=
    (Builder.keepsUp a orderly distinct).makeCalls_cases (Builder.at_new a)
      (Outline.fullStop_not_mem follows) (.error (.json cause))
  · refine ⟨b.arena, ?_⟩
    have failed : (v.script read).run Builder.call (.new a) = (.error (.json cause), b) := by
      rw [script]
      exact run
    rw [toTerm_eq_sentenceTerm_run, failed]
    rfl
  · cases refused o follows

/-- A consumer that accepts all calls and keeps them. -/
def record (log : List Call) (c : Call) : Answer × List Call := (.ok (), log ++ [c])

end Json.Value

end PrologWire

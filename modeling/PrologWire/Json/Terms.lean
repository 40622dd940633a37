import PrologWire.Arena.Builder
import PrologWire.Arena.Calls
import PrologWire.Text.Digits

/-!
# Terms written as JSON values

Numbers are numbers, strings are atoms, arrays are lists. An object is a compound if it has a
functor, and otherwise one value with a tag that tells its kind. How integers are read from their
texts is a parameter.

Emission looks at one level of a value at a time and keeps what is still to be done on a stack, so
that neither deep nor long values are a burden. `Value.script` has the calls by recursion on the
value and is what statements are about; `Value.emit_eq_run_script` says that the two agree.
-/

namespace PrologWire.Json

open Text (IntegerReader)
open Walk (thenDo)

/-- The call for a number. -/
def Number.call : Number → Call
  | integer value =>
    match int64? value with
    | some small => .int small
    | none => .bigint value
  | real value => .float value

/-- The call for a value with a tag. -/
def tagged (key : String) (value : Value) (read : IntegerReader := Text.readInt?) :
    Except JsonError Call :=
  match key, value with
  | "var", .string name => .ok (.var name)
  | "atom", .string name => .ok (.atom name)
  | "int", .string digits =>
    match read digits.toList with
    | some i => .ok (.bigint i)
    | none => .error (.invalidInteger digits)
  | "int", .number (.integer i) => .ok (Number.integer i).call
  | "float", .number n => .ok (.float n.toReal)
  | _, _ => .error (.unknownTag key value)

/-- The object has no other members than a functor and arguments. -/
def onlyCompoundKeys (members : List (String × Value)) : Bool :=
  members.all fun m => m.1 = "func" || m.1 = "args"

/-- A failure of a value to be a term. -/
def refuse (cause : JsonError) : Script := .fail (.json cause)

/-- One call, or a failure in its place. -/
def callOrRefuse : Except JsonError Call → Script
  | .error cause => refuse cause
  | .ok c => .call c

/-! ## One level of a value -/

/-- What a value comes to when its parts are not looked at. -/
inductive Level where
  /-- One call is all. -/
  | leaf (c : Call)
  /-- A list of one element or more. -/
  | list (items : List Value)
  /-- A compound of one argument or more. -/
  | compound (functor : String) (args : List Value)

/-- The arguments of a compound; without any the compound is an atom. -/
def arguments (members : List (String × Value)) : Except JsonError (List Value) :=
  match member? "args" members with
  | none => .ok []
  | some (.array args) => .ok args
  | some found => .error (.argsNotArray found)

/-- What an object comes to. -/
def objectLevel (members : List (String × Value)) (read : IntegerReader := Text.readInt?) :
    Except JsonError Level :=
  match member? "func" members with
  | none =>
    match members with
    | [(key, value)] =>
      match tagged key value read with
      | .error cause => .error cause
      | .ok c => .ok (.leaf c)
    | _ => .error (.notOneTag (.object members))
  | some (.string functor) =>
    match arguments members with
    | .error cause => .error cause
    | .ok args =>
      -- arguments of the wrong kind are reported before other members
      if !onlyCompoundKeys members then .error (.unexpectedKeys (.object members))
      else if args.isEmpty then .ok (.leaf (.atom functor))
      else .ok (.compound functor args)
  | some found => .error (.functorNotString found)

/-- What a value comes to. -/
def Value.level (v : Value) (read : IntegerReader := Text.readInt?) : Except JsonError Level :=
  match v with
  | null => .error (.noTerm null)
  | bool b => .error (.noTerm (bool b))
  | number n => .ok (.leaf n.call)
  | string s => .ok (.leaf (.atom s))
  | array items => .ok (if items.isEmpty then .leaf .emptyList else .list items)
  | object members => objectLevel members read

/-! ## What is still to be done -/

/-- Something that emission has still to do. -/
inductive Pending where
  | value (v : Value)
  | closeTerm
  | closeList

namespace Pending

/-- The stack with values on top of it. They are pushed from the last to the first, so that the first
is taken off before the others. -/
def push (values : List Value) (stack : List Pending) : List Pending :=
  values.reverse.foldl (fun stack v => value v :: stack) stack

theorem push_eq (values : List Value) (stack : List Pending) :
    push values stack = values.map value ++ stack := by
  rw [push, List.foldl_reverse]
  induction values with
  | nil => rfl
  | cons v rest ih => rw [List.foldr_cons, ih, List.map_cons, List.cons_append]

/-- A bound for what is to be done. -/
noncomputable def size : List Pending → Nat
  | [] => 0
  | value v :: rest => 1 + sizeOf v + size rest
  | closeTerm :: rest => 1 + size rest
  | closeList :: rest => 1 + size rest

theorem size_push_lt (values : List Value) (stack : List Pending) :
    size (push values stack) < sizeOf values + size stack := by
  rw [push_eq]
  induction values with
  | nil => exact Nat.lt_add_of_pos_left Nat.zero_lt_one
  | cons v rest ih =>
    rw [List.map_cons, List.cons_append, size, List.cons.sizeOf_spec]
    omega

end Pending

/-- A member is smaller than all members. -/
theorem sizeOf_of_member? {key : String} {members : List (String × Value)} {v : Value}
    (found : member? key members = some v) : sizeOf v < sizeOf members := by
  induction members with
  | nil => cases found
  | cons m rest ih =>
    obtain ⟨name, value⟩ := m
    rw [member?, List.lookup_cons] at found
    rw [List.cons.sizeOf_spec, Prod.mk.sizeOf_spec]
    split at found
    · obtain rfl := Option.some.inj found
      omega
    · have := ih found
      omega

/-- An object is a leaf, or a compound whose arguments are among its members. -/
theorem objectLevel_cases {members : List (String × Value)} {read : IntegerReader} {l : Level}
    (seen : objectLevel members read = .ok l) :
    (∃ c, l = .leaf c) ∨
    ∃ functor args, l = .compound functor args ∧ member? "args" members = some (.array args) := by
  unfold objectLevel at seen
  split at seen
  · split at seen
    · split at seen
      · cases seen
      · exact .inl ⟨_, (Except.ok.inj seen).symm⟩
    · cases seen
  · next functor _ =>
    split at seen
    · cases seen
    · next args taken =>
      split at seen
      · cases seen
      · split at seen
        · exact .inl ⟨_, (Except.ok.inj seen).symm⟩
        · next filled =>
          refine .inr ⟨functor, args, (Except.ok.inj seen).symm, ?_⟩
          unfold arguments at taken
          split at taken
          · -- without such a member there are no arguments
            exact absurd (Except.ok.inj taken ▸ rfl) filled
          · next found => rw [found, Except.ok.inj taken]
          · cases taken
  · cases seen

namespace Value

variable {σ : Type} {v : Value} {read : IntegerReader}

/-! ## With a stack -/

/-- The elements of a list are smaller than the list. -/
theorem sizeOf_of_level_list {items : List Value} (seen : v.level read = .ok (.list items)) :
    sizeOf items < sizeOf v := by
  cases v with
  | array elems =>
    rw [level] at seen
    split at seen
    · cases seen
    · obtain rfl := Level.list.inj (Except.ok.inj seen)
      rw [array.sizeOf_spec]
      omega
  | object members => obtain ⟨c, same⟩ | ⟨functor, args, same, -⟩ := objectLevel_cases seen <;> cases same
  | _ => cases seen

/-- The arguments of a compound are smaller than the compound. -/
theorem sizeOf_of_level_compound {functor : String} {args : List Value}
    (seen : v.level read = .ok (.compound functor args)) : sizeOf args < sizeOf v := by
  cases v with
  | array elems =>
    rw [level] at seen
    split at seen <;> cases seen
  | object members =>
    obtain ⟨c, same⟩ | ⟨_, _, same, inside⟩ := objectLevel_cases seen
    · cases same
    · obtain ⟨-, rfl⟩ := Level.compound.inj same
      have smaller := sizeOf_of_member? inside
      rw [array.sizeOf_spec] at smaller
      rw [object.sizeOf_spec]
      omega
  | _ => cases seen

/-- Does what is on a stack, the topmost first. -/
def emitAll (read : IntegerReader) (consume : σ → Call → Answer × σ) (stack : List Pending)
    (s : σ) : Answer × σ :=
  match stack with
  | [] => (.ok (), s)
  | .closeTerm :: rest => thenDo (consume s .closeTerm) (emitAll read consume rest)
  | .closeList :: rest => thenDo (consume s .closeList) (emitAll read consume rest)
  | .value v :: rest =>
    match _ : v.level read with
    | .error cause => (.error (.json cause), s)
    | .ok (.leaf c) => thenDo (consume s c) (emitAll read consume rest)
    | .ok (.list items) =>
      thenDo (consume s .openList) (emitAll read consume (Pending.push items (.closeList :: rest)))
    | .ok (.compound functor args) =>
      thenDo (consume s (.openTerm functor))
        (emitAll read consume (Pending.push args (.closeTerm :: rest)))
termination_by Pending.size stack
decreasing_by
  · rw [Pending.size]
    omega
  · rw [Pending.size]
    omega
  · rw [Pending.size]
    omega
  · have smaller := sizeOf_of_level_list ‹_›
    have pushed := Pending.size_push_lt items (.closeList :: rest)
    rw [Pending.size] at pushed
    rw [Pending.size]
    omega
  · have smaller := sizeOf_of_level_compound ‹_›
    have pushed := Pending.size_push_lt args (.closeTerm :: rest)
    rw [Pending.size] at pushed
    rw [Pending.size]
    omega

/-- Makes the calls for the term that a value denotes to a consumer, up to the first failure. -/
def emit (v : Value) (consume : σ → Call → Answer × σ) (s : σ)
    (read : IntegerReader := Text.readInt?) : Answer × σ :=
  emitAll read consume [.value v] s

/-! ## By recursion -/

mutual

/-- The calls for the term that a value denotes, up to the first part that denotes none. -/
def script (v : Value) (read : IntegerReader := Text.readInt?) : Script :=
  match v with
  | null => refuse (.noTerm null)
  | bool b => refuse (.noTerm (bool b))
  | number n => .call n.call
  | string s => .call (.atom s)
  | array [] => .call .emptyList
  | array items => .call .openList ++ scriptAll items read ++ .call .closeList
  | object members =>
    match member? "func" members with
    | none =>
      match members with
      | [(key, value)] => callOrRefuse (tagged key value read)
      | _ => refuse (.notOneTag (object members))
    | some (string functor) =>
      match argsScript members read with
      | .error cause => refuse cause
      | .ok args =>
        if !onlyCompoundKeys members then refuse (.unexpectedKeys (object members))
        else match args with
          | none => .call (.atom functor)
          | some args => .call (.openTerm functor) ++ args ++ .call .closeTerm
    | some found => refuse (.functorNotString found)

/-- The calls for the values of an array, one after the other. -/
def scriptAll (vs : List Value) (read : IntegerReader := Text.readInt?) : Script :=
  match vs with
  | [] => .empty
  | v :: rest => v.script read ++ scriptAll rest read

/-- The calls for the arguments among the members of an object, if it has any arguments. -/
def argsScript (members : List (String × Value)) (read : IntegerReader := Text.readInt?) :
    Except JsonError (Option Script) :=
  match members with
  | [] => .ok none
  | (key, value) :: rest =>
    if key = "args" then
      match value with
      | array [] => .ok none
      | array items => .ok (some (scriptAll items read))
      | found => .error (.argsNotArray found)
    else argsScript rest read

end

/-! ## Both agree -/

theorem argsScript_eq (members : List (String × Value)) (read : IntegerReader) :
    argsScript members read = (arguments members).map fun args =>
      if args.isEmpty then none else some (scriptAll args read) := by
  induction members with
  | nil => rfl
  | cons m rest ih =>
    obtain ⟨key, value⟩ := m
    rw [argsScript.eq_def]
    dsimp only
    by_cases named : key = "args"
    · subst named
      rw [arguments, member?, List.lookup_cons_self, if_pos rfl]
      cases value with
      | array args => cases args <;> rfl
      | _ => rfl
    · have other : arguments ((key, value) :: rest) = arguments rest := by
        rw [arguments, arguments, member?, member?, List.lookup_cons,
          beq_eq_false_iff_ne.mpr (Ne.symm named)]
      rw [if_neg named, other, ih]

/-- The calls for what a value comes to. -/
def levelScript (read : IntegerReader) : Except JsonError Level → Script
  | .error cause => refuse cause
  | .ok (.leaf c) => .call c
  | .ok (.list items) => .call .openList ++ scriptAll items read ++ .call .closeList
  | .ok (.compound functor args) =>
    .call (.openTerm functor) ++ scriptAll args read ++ .call .closeTerm

/-- The calls for a value are those for what it comes to. -/
theorem script_eq_levelScript (v : Value) (read : IntegerReader) :
    v.script read = levelScript read (v.level read) := by
  cases v with
  | array items => cases items <;> rfl
  | object members =>
    rw [script.eq_def, level, objectLevel.eq_def]
    dsimp only
    rcases member? "func" members with _ | found
    · rcases members with _ | ⟨⟨key, value⟩, _ | ⟨second, rest⟩⟩
      · rfl
      · dsimp only
        rcases tagged key value read with cause | c <;> rfl
      · rfl
    · cases found with
      | string functor =>
        dsimp only
        rw [argsScript_eq]
        rcases arguments members with cause | args
        · rfl
        · rcases onlyCompoundKeys members with _ | _
          · rfl
          · cases args <;> rfl
      | _ => rfl
  | _ => rfl

section

variable (consume : σ → Call → Answer × σ) {values : List Value}

/-- Values on top of a stack are done one after the other, if this is so of each of them. -/
theorem emitAll_push (each : ∀ v ∈ values, ∀ rest s, emitAll read consume (.value v :: rest) s =
      thenDo ((v.script read).run consume s) (emitAll read consume rest))
    (stack : List Pending) (s : σ) : emitAll read consume (Pending.push values stack) s =
      thenDo ((scriptAll values read).run consume s) (emitAll read consume stack) := by
  rw [Pending.push_eq]
  induction values generalizing s with
  | nil => rfl
  | cons v rest ih =>
    have others := ih fun v among => each v (List.mem_cons_of_mem _ among)
    rw [List.map_cons, List.cons_append, each v List.mem_cons_self, funext others, scriptAll,
      Print.run_append_eq_thenDo, Walk.thenDo_thenDo]

/-- The closing call waits on the stack below the values. -/
theorem emitAll_between {opening closing : Call} {last : Pending} {rest : List Pending}
    (each : ∀ v ∈ values, ∀ rest s, emitAll read consume (.value v :: rest) s =
      thenDo ((v.script read).run consume s) (emitAll read consume rest))
    (closes : emitAll read consume (last :: rest) =
      fun s => thenDo (consume s closing) (emitAll read consume rest)) (s : σ) :
    thenDo (consume s opening) (emitAll read consume (Pending.push values (last :: rest))) =
      thenDo ((Script.call opening ++ scriptAll values read ++ .call closing).run consume s)
        (emitAll read consume rest) := by
  have inside := funext (emitAll_push consume each (last :: rest))
  rw [inside, closes, Print.run_append_eq_thenDo, Print.run_append_eq_thenDo, Print.run_call_eq,
    Print.run_call_eq, Walk.thenDo_thenDo, Walk.thenDo_thenDo]

end

/-- A value on top of a stack is done by its calls, and then the rest is. -/
theorem emitAll_value (consume : σ → Call → Answer × σ) (v : Value) (rest : List Pending) (s : σ) :
    emitAll read consume (.value v :: rest) s =
      thenDo ((v.script read).run consume s) (emitAll read consume rest) := by
  rw [emitAll, script_eq_levelScript]
  split
  · next cause seen =>
    rw [seen]
    rfl
  · next c seen => rw [seen, levelScript, Script.run_call]
  · next items seen =>
    have closes : emitAll read consume (.closeList :: rest) =
        fun s => thenDo (consume s .closeList) (emitAll read consume rest) := by
      funext s
      rw [emitAll]
    have smaller := sizeOf_of_level_list seen
    rw [seen, levelScript]
    exact emitAll_between consume (fun v among => emitAll_value consume v) closes s
  · next functor args seen =>
    have closes : emitAll read consume (.closeTerm :: rest) =
        fun s => thenDo (consume s .closeTerm) (emitAll read consume rest) := by
      funext s
      rw [emitAll]
    have smaller := sizeOf_of_level_compound seen
    rw [seen, levelScript]
    exact emitAll_between consume (fun v among => emitAll_value consume v) closes s
termination_by sizeOf v
decreasing_by
  all_goals
    have inside := List.sizeOf_lt_of_mem among
    omega

/-- Emission makes the calls of the value's script. -/
theorem emit_eq_run_script (v : Value) (consume : σ → Call → Answer × σ) (s : σ)
    (read : IntegerReader) : v.emit consume s read = (v.script read).run consume s := by
  have nothing : emitAll read consume [] = fun s => (.ok (), s) := by
    funext s
    rw [emitAll]
  rw [emit, emitAll_value, nothing, Walk.thenDo_done]

/-! ## Terms -/

/-- The term that a builder was given as a sentence, if all went well. -/
def sentenceTerm (given : Answer × Builder) : Except WireError Handle × Arena :=
  let (emitted, b) := given
  match emitted with
  | .error cause => (.error cause, b.arena)
  | .ok () =>
    let (ended, b) := b.fullStop
    match ended, b.finished with
    | .error cause, _ => (.error cause, b.arena)
    | .ok (), h :: _ => (.ok h, b.arena)
    | .ok (), [] => (.error (.unsupported .emptySentence), b.arena)

/-- Builds the term that a value denotes. -/
def toTerm (v : Value) (a : Arena) (read : IntegerReader := Text.readInt?) :
    Except WireError Handle × Arena :=
  sentenceTerm (v.emit Builder.call (Builder.new a) read)

theorem toTerm_eq_sentenceTerm_run (v : Value) (a : Arena) (read : IntegerReader) :
    v.toTerm a read = sentenceTerm ((v.script read).run Builder.call (Builder.new a)) :=
  congrArg sentenceTerm (v.emit_eq_run_script Builder.call (Builder.new a) read)

end Value

end PrologWire.Json

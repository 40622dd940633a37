import PrologWire.Proofs.Arena.LeafTexts

/-!
# Prolog text tells the term

The text of a term begins with a token or an opening bracket that tells its shape, and the texts of its parts
end at a comma or a bracket. So the text tells the whole term but for the great floats in it.
-/

namespace PrologWire

/-! ## Terms with names for functors -/

namespace Tree

/-- Nothing in the term is broken, its functors are names, and its leaves are as required. -/
inductive Proper (good : Leaf → Prop) : Tree → Prop where
  | leaf {l : Leaf} : good l → Proper good (leaf l)
  | func (name : String) {xs : List Tree} : (∀ x ∈ xs, Proper good x) → Proper good (func (ofName name) xs)
  | list {xs : List Tree} : (∀ x ∈ xs, Proper good x) → Proper good (list xs)
  | tuple {xs : List Tree} : (∀ x ∈ xs, Proper good x) → Proper good (tuple xs)

variable {good : Leaf → Prop}

/-- What is required of all leaves besides. -/
theorem Proper.and_over {also : Leaf → Prop} {t : Tree} (proper : t.Proper good) (besides : t.Over also) :
    t.Proper fun l => good l ∧ also l := by
  induction proper with
  | leaf holds =>
    cases besides with
    | leaf more => exact .leaf ⟨holds, more⟩
  | func name _ ih =>
    cases besides with
    | func _ more => exact .func name fun x among => ih x among (more x among)
  | list _ ih =>
    cases besides with
    | list more => exact .list fun x among => ih x among (more x among)
  | tuple _ ih =>
    cases besides with
    | tuple more => exact .tuple fun x among => ih x among (more x among)

theorem joined?_cons_cons (t u : Tree) (rest : List Tree) : joined? (t :: u :: rest) =
    t.text?.bind fun first => (joined? (u :: rest)).map fun others => first ++ ',' :: ' ' :: others := by
  rw [joined?]
  · simp only [Option.map_eq_bind, bind, Function.comp_def]
  · exact List.cons_ne_nil u rest

/-- Terms that all have texts have a text together. -/
theorem exists_joined? {ts : List Tree} (each : ∀ t ∈ ts, ∃ s, t.text? = some s) :
    ∃ s, joined? ts = some s := by
  induction ts with
  | nil => exact ⟨[], rfl⟩
  | cons t rest ih =>
    obtain ⟨⟨first, has⟩, others⟩ := List.forall_mem_cons.mp each
    cases rest with
    | nil => exact ⟨first, has⟩
    | cons u rest =>
      obtain ⟨behind, following⟩ := ih others
      exact ⟨first ++ ',' :: ' ' :: behind, by rw [joined?_cons_cons, has, following]; rfl⟩

theorem text?_func_ofName (name : String) (args : List Tree) : (func (ofName name) args).text? =
    (joined? args).map fun inner => Text.atomText name.toList ++ ['('] ++ inner ++ [')'] := by
  rw [text?, functorName_ofName]

/-- Such a term has a text. -/
theorem Proper.exists_text? {t : Tree} (proper : t.Proper good) : ∃ s, t.text? = some s := by
  induction proper with
  | @leaf l _ => exact ⟨l.text, rfl⟩
  | func name _ ih =>
    obtain ⟨inner, has⟩ := exists_joined? ih
    exact ⟨_, by rw [text?_func_ofName, has]; rfl⟩
  | list _ ih | tuple _ ih =>
    obtain ⟨inner, has⟩ := exists_joined? ih
    exact ⟨_, by rw [text?, has]; rfl⟩

mutual

/-- The term with integers in the place of the great floats in it. -/
def levelled : Tree → Tree
  | leaf l => leaf l.levelled
  | func functor args => func functor (levelledAll args)
  | list elems => list (levelledAll elems)
  | tuple elems => tuple (levelledAll elems)
  | broken cause => broken cause

/-- The terms with integers in the place of the great floats in them. -/
def levelledAll : List Tree → List Tree
  | [] => []
  | t :: rest => t.levelled :: levelledAll rest

end

mutual

/-- It has the same text. -/
theorem text?_levelled : ∀ t : Tree, t.levelled.text? = t.text?
  | leaf l => congrArg some l.text_levelled
  | func functor args => by rw [levelled, text?, text?, joined?_levelledAll args]
  | list elems => by rw [levelled, text?, text?, joined?_levelledAll elems]
  | tuple elems => by rw [levelled, text?, text?, joined?_levelledAll elems]
  | broken _ => rfl

theorem joined?_levelledAll : ∀ ts : List Tree, joined? (levelledAll ts) = joined? ts
  | [] => rfl
  | [t] => text?_levelled t
  | t :: u :: rest => by
    have first := text?_levelled t
    have others := joined?_levelledAll (u :: rest)
    rw [joined?_cons_cons, ← first, ← others]
    exact joined?_cons_cons t.levelled u.levelled (levelledAll rest)

end

theorem levelledAll_eq_map (ts : List Tree) : levelledAll ts = ts.map levelled := by
  induction ts with
  | nil => rfl
  | cons t rest ih => rw [levelledAll, ih, List.map_cons]

/-- Without great floats it is the term itself. -/
theorem levelled_eq_self {t : Tree} (small : t.Over fun l => l.isGreat = false) : t.levelled = t := by
  have all {ts : List Tree} (each : ∀ t ∈ ts, t.levelled = t) : levelledAll ts = ts := by
    rw [levelledAll_eq_map, List.map_congr_left each, List.map_id']
  induction small with
  | leaf small => rw [levelled, Leaf.levelled_of_isGreat_eq_false small]
  | func _ _ _ ih => rw [levelled, all ih]
  | list _ ih | tuple _ ih => rw [levelled, all ih]

theorem Proper.levelled {t : Tree} (proper : t.Proper fun l => l.Sound ∧ l.Readable) :
    t.levelled.Proper Leaf.Told := by
  have all {ts : List Tree} (each : ∀ t ∈ ts, t.levelled.Proper Leaf.Told) :
      ∀ t ∈ levelledAll ts, t.Proper Leaf.Told := by
    rw [levelledAll_eq_map]
    exact List.forall_mem_map.mpr each
  induction proper with
  | leaf holds => exact .leaf (Leaf.told_levelled holds.1 holds.2)
  | func name _ ih => exact .func name (all ih)
  | list _ ih => exact .list (all ih)
  | tuple _ ih => exact .tuple (all ih)

/-! ## What texts tell -/

/-- The text of a term, with what its parts are shown as. -/
inductive Shows : Tree → List Char → Prop where
  | leaf {l : Leaf} : l.Told → Shows (leaf l) l.text
  | func (name : String) {xs : List Tree} {inner : List Char} : (∀ x ∈ xs, x.Proper Leaf.Told) →
    joined? xs = some inner →
      Shows (func (ofName name) xs) (Text.atomText name.toList ++ '(' :: (inner ++ [')']))
  | list {xs : List Tree} {inner : List Char} : (∀ x ∈ xs, x.Proper Leaf.Told) → joined? xs = some inner →
    Shows (list xs) ('[' :: (inner ++ [']']))
  | tuple {xs : List Tree} {inner : List Char} : (∀ x ∈ xs, x.Proper Leaf.Told) → joined? xs = some inner →
    Shows (tuple xs) ('(' :: (inner ++ [')']))

theorem Proper.shows {t : Tree} {s : List Char} (proper : t.Proper Leaf.Told) (has : t.text? = some s) :
    t.Shows s := by
  cases proper with
  | leaf told =>
    obtain rfl := Option.some.inj has
    exact .leaf told
  | func name parts =>
    rw [text?_func_ofName] at has
    obtain ⟨inner, joined, rfl⟩ := Option.map_eq_some_iff.mp has
    rw [List.append_assoc, List.append_assoc]
    exact .func name parts joined
  | list parts =>
    rw [text?] at has
    obtain ⟨inner, joined, rfl⟩ := Option.map_eq_some_iff.mp has
    exact .list parts joined
  | tuple parts =>
    rw [text?] at has
    obtain ⟨inner, joined, rfl⟩ := Option.map_eq_some_iff.mp has
    exact .tuple parts joined

/-- The characters behind a term. -/
def endsTerm (c : Char) : Bool := c = ',' || c = ')' || c = ']'

/-- Nothing more comes, or what comes does not belong to a term before it. -/
def Closed (rest : List Char) : Prop := ∀ c ∈ rest.head?, endsTerm c = true

theorem closed_nil : Closed [] := by
  intro c first
  cases first

theorem closed_cons {c : Char} {cs : List Char} (h : endsTerm c = true) : Closed (c :: cs) := by
  rintro d ⟨⟩
  exact h

theorem Closed.apart {rest : List Char} (closed : Closed rest) : Text.Apart rest := by
  intro c head
  have ends := closed c head
  simp only [endsTerm, Text.endsWord, Bool.or_eq_true, decide_eq_true_eq] at ends ⊢
  obtain (comma | closing) | bracket := ends
  · exact .inl (.inl (.inl comma))
  · exact .inl (.inr closing)
  · exact .inr bracket

/-- No arguments come behind a term. -/
theorem Closed.ne_opening {rest cs : List Char} (closed : Closed rest) : rest ≠ '(' :: cs := by
  rintro rfl
  have ends := closed '(' rfl
  exact absurd ends (by decide)

/-- The text of a term has characters, the first of which does not end a term. -/
theorem Shows.head {t : Tree} {s : List Char} (shows : t.Shows s) :
    ∃ c cs, s = c :: cs ∧ endsTerm c = false := by
  have opening {c : Char} (inside : Text.endsWord c = false) : endsTerm c = false := by
    simp only [endsTerm, Text.endsWord, Bool.or_eq_false_iff] at inside ⊢
    exact ⟨⟨inside.1.1.1, inside.1.2⟩, inside.2⟩
  cases shows with
  | leaf told =>
    obtain ⟨c, cs, text, inside⟩ := told.token.head
    exact ⟨c, cs, text, opening inside⟩
  | func name _ _ =>
    obtain ⟨c, cs, text, inside⟩ := (Text.token_atomText name.toList).head
    rw [text]
    exact ⟨c, _, rfl, opening inside⟩
  | list _ _ | tuple _ _ => exact ⟨_, _, rfl, by decide⟩

/-- What stands behind the first part between brackets. -/
inductive Behind : List Tree → List Char → Prop where
  | nil : Behind [] []
  | cons {t : Tree} {rest : List Tree} {others : List Char} : joined? (t :: rest) = some others →
    Behind (t :: rest) (',' :: ' ' :: others)

theorem joined?_cons_eq_some {t : Tree} {rest : List Tree} {s : List Char}
    (has : joined? (t :: rest) = some s) :
    ∃ first more, t.text? = some first ∧ Behind rest more ∧ s = first ++ more := by
  cases rest with
  | nil => exact ⟨s, [], has, .nil, (List.append_nil s).symm⟩
  | cons u rest =>
    rw [joined?_cons_cons] at has
    obtain ⟨first, text, has⟩ := Option.bind_eq_some_iff.mp has
    obtain ⟨others, joined, rfl⟩ := Option.map_eq_some_iff.mp has
    exact ⟨first, _, text, .cons joined, rfl⟩

/-- What stands behind a part ends it. -/
theorem Behind.closed {ts : List Tree} {more rest : List Char} (behind : Behind ts more) {c : Char}
    (closing : endsTerm c = true) : Closed (more ++ c :: rest) := by
  cases behind with
  | nil => exact closed_cons closing
  | cons _ => exact closed_cons (by decide)

/-- What stands between brackets does not begin with a closing bracket, if it is not empty. -/
theorem joined?_append_ne {t : Tree} {rest : List Tree} {inner x y : List Char} {c : Char}
    (proper : t.Proper Leaf.Told) (joined : joined? (t :: rest) = some inner) (closing : endsTerm c = true) :
    inner ++ x ≠ c :: y := by
  obtain ⟨first, more, text, -, rfl⟩ := joined?_cons_eq_some joined
  obtain ⟨d, ds, rfl, inside⟩ := (proper.shows text).head
  intro same
  obtain rfl := (List.cons.inj same).1
  rw [inside] at closing
  cases closing

/-- Texts in the same brackets are told with what comes behind. -/
theorem inside_brackets {x y r r' : List Char} {opening closing : Char}
    (same : opening :: (x ++ [closing]) ++ r = opening :: (y ++ [closing]) ++ r') :
    x ++ closing :: r = y ++ closing :: r' := by
  simpa only [List.cons_append, List.append_assoc, List.nil_append, List.cons.injEq, true_and] using same

/-- A compound does not look like a list, even if its name is `[]`. -/
theorem func_ne_list {name : String} {ts : List Tree} {inner x r : List Char}
    (parts : ∀ t ∈ ts, t.Proper Leaf.Told) (joined : joined? ts = some inner) (closed : Closed r) :
    Text.atomText name.toList ++ '(' :: x ≠ '[' :: (inner ++ [']']) ++ r := by
  by_cases brackets : name.toList = ['[', ']']
  · rw [brackets]
    intro same
    have behind : ']' :: '(' :: x = inner ++ ']' :: r := by
      rw [List.cons_append, List.append_assoc] at same
      exact (List.cons.inj same).2
    cases ts with
    | nil =>
      obtain rfl := Option.some.inj joined
      exact closed.ne_opening (List.cons.inj behind).2.symm
    | cons t rest =>
      have proper := parts t List.mem_cons_self
      exact joined?_append_ne proper joined (by decide) behind.symm
  · exact Text.atomText_append_ne brackets

/-- A token does not begin as a tuple does. -/
theorem token_append_ne {u x y : List Char} (token : Text.Token u) : u ++ x ≠ '(' :: y := by
  obtain ⟨c, cs, rfl, inside⟩ := token.head
  intro same
  obtain rfl := (List.cons.inj same).1
  exact absurd inside (by decide)

/-- A leaf does not look like a compound. -/
theorem leaf_ne_func {l : Leaf} {name : String} {x r : List Char} (told : l.Told) (closed : Closed r) :
    l.text ++ r ≠ Text.atomText name.toList ++ '(' :: x := by
  intro same
  have apart : Text.Apart ('(' :: x) := Text.apart_cons (by decide)
  have rest := (told.token.append_inj (Text.token_atomText name.toList) closed.apart apart same).2
  exact closed.ne_opening rest

theorem ends_of_closing {c : Char} (closing : c = ')' ∨ c = ']') : endsTerm c = true := by
  rcases closing with rfl | rfl <;> rfl

theorem ne_comma_of_closing {c : Char} (closing : c = ')' ∨ c = ']') : c ≠ ',' := by
  rcases closing with rfl | rfl <;> decide

mutual

/-- What begins with the text of a term tells the term and the rest. -/
theorem text?_append_inj : ∀ {t u : Tree} {s s' r r' : List Char}, t.Proper Leaf.Told → u.Proper Leaf.Told →
    t.text? = some s → u.text? = some s' → Closed r → Closed r' → s ++ r = s' ++ r' → t = u ∧ r = r'
  | .leaf l, u, s, s', r, r', left, right, has, has', closed, closed', same => by
    cases left.shows has with
    | leaf told =>
      cases right.shows has' with
      | leaf told' =>
        obtain ⟨texts, rest⟩ := told.token.append_inj told'.token closed.apart closed'.apart same
        exact ⟨congrArg leaf (told.text_inj told' texts), rest⟩
      | func name _ _ =>
        rw [List.append_assoc] at same
        exact absurd same (leaf_ne_func told closed)
      | list _ _ => exact absurd same told.text_append_ne
      | tuple _ _ => exact absurd same (token_append_ne told.token)
  | .func f xs, u, s, s', r, r', left, right, has, has', closed, closed', same => by
    cases left.shows has with
    | func name parts joined =>
      rw [List.append_assoc] at same
      cases right.shows has' with
      | leaf told' => exact absurd same.symm (leaf_ne_func told' closed')
      | func name' parts' joined' =>
        rw [List.append_assoc] at same
        obtain ⟨names, behind⟩ :=
          Text.atomText_append_inj (Text.apart_cons (by decide)) (Text.apart_cons (by decide)) same
        have inside := inside_brackets behind
        obtain ⟨rfl, rest⟩ := joined?_append_inj parts parts' joined joined' (by decide) inside
        rw [String.toList_inj.mp names]
        exact ⟨rfl, rest⟩
      | list parts' joined' => exact absurd same (func_ne_list parts' joined' closed')
      | tuple _ _ => exact absurd same (token_append_ne (Text.token_atomText name.toList))
  | .list xs, u, s, s', r, r', left, right, has, has', closed, closed', same => by
    cases left.shows has with
    | list parts joined =>
      cases right.shows has' with
      | leaf told' => exact absurd same.symm told'.text_append_ne
      | func name' _ _ =>
        rw [List.append_assoc] at same
        exact absurd same.symm (func_ne_list parts joined closed)
      | list parts' joined' =>
        have inside := inside_brackets same
        obtain ⟨rfl, rest⟩ := joined?_append_inj parts parts' joined joined' (by decide) inside
        exact ⟨rfl, rest⟩
      | tuple _ _ => exact absurd (List.cons.inj same).1 (by decide)
  | .tuple xs, u, s, s', r, r', left, right, has, has', closed, closed', same => by
    cases left.shows has with
    | tuple parts joined =>
      cases right.shows has' with
      | leaf told' => exact absurd same.symm (token_append_ne told'.token)
      | func name' _ _ =>
        rw [List.append_assoc] at same
        exact absurd same.symm (token_append_ne (Text.token_atomText name'.toList))
      | list _ _ => exact absurd (List.cons.inj same).1 (by decide)
      | tuple parts' joined' =>
        have inside := inside_brackets same
        obtain ⟨rfl, rest⟩ := joined?_append_inj parts parts' joined joined' (by decide) inside
        exact ⟨rfl, rest⟩
  | .broken _, _, _, _, _, _, _, _, has, _, _, _, _ => by cases has

/-- What begins with the texts of terms and a closing bracket tells the terms and the rest. -/
theorem joined?_append_inj : ∀ {ts us : List Tree} {inner inner' r r' : List Char} {c : Char},
    (∀ t ∈ ts, t.Proper Leaf.Told) → (∀ u ∈ us, u.Proper Leaf.Told) → joined? ts = some inner →
    joined? us = some inner' → c = ')' ∨ c = ']' → inner ++ c :: r = inner' ++ c :: r' → ts = us ∧ r = r'
  | [], us, inner, inner', r, r', c, parts, parts', joined, joined', closing, same => by
    obtain rfl := Option.some.inj joined
    cases us with
    | nil =>
      obtain rfl := Option.some.inj joined'
      exact ⟨rfl, (List.cons.inj same).2⟩
    | cons u others =>
      have proper := parts' u List.mem_cons_self
      exact absurd same.symm (joined?_append_ne proper joined' (ends_of_closing closing))
  | t :: rest, us, inner, inner', r, r', c, parts, parts', joined, joined', closing, same => by
    have closes := ends_of_closing closing
    obtain ⟨proper, others⟩ := List.forall_mem_cons.mp parts
    cases us with
    | nil =>
      obtain rfl := Option.some.inj joined'
      exact absurd same (joined?_append_ne proper joined closes)
    | cons u rest' =>
      obtain ⟨proper', others'⟩ := List.forall_mem_cons.mp parts'
      obtain ⟨first, more, text, behind, rfl⟩ := joined?_cons_eq_some joined
      obtain ⟨first', more', text', behind', rfl⟩ := joined?_cons_eq_some joined'
      rw [List.append_assoc, List.append_assoc] at same
      obtain ⟨rfl, following⟩ :=
        text?_append_inj proper proper' text text' (behind.closed closes) (behind'.closed closes) same
      -- either both rows end here or both go on behind a comma
      cases behind with
      | nil =>
        cases behind' with
        | nil => exact ⟨rfl, (List.cons.inj following).2⟩
        | cons _ => exact absurd (List.cons.inj following).1 (ne_comma_of_closing closing)
      | cons further =>
        cases behind' with
        | nil => exact absurd (List.cons.inj following).1.symm (ne_comma_of_closing closing)
        | cons further' =>
          have behind := (List.cons.inj (List.cons.inj following).2).2
          obtain ⟨terms, rest⟩ := joined?_append_inj others others' further further' closing behind
          exact ⟨congrArg (t :: ·) terms, rest⟩

end

/-- The texts of two terms are the same exactly if the terms are with integers in the place of great floats. -/
theorem text?_eq_iff {t u : Tree} {s s' : List Char} (left : t.Proper fun l => l.Sound ∧ l.Readable)
    (right : u.Proper fun l => l.Sound ∧ l.Readable) (has : t.text? = some s) (has' : u.text? = some s') :
    s = s' ↔ t.levelled = u.levelled := by
  constructor
  · rintro rfl
    rw [← text?_levelled] at has has'
    exact (text?_append_inj left.levelled right.levelled has has' closed_nil closed_nil rfl).1
  · intro same
    rw [← text?_levelled, same, text?_levelled, has'] at has
    exact (Option.some.inj has).symm

end Tree

/-! ## Held terms -/

namespace Arena

variable {a b : Arena} {h k : Handle} {depth : Nat}

/-- The functors of a held term are names. -/
theorem HoldsTerm.proper_unfold (held : a.HoldsTerm h) (whole : a.WholeWithin depth h) :
    (a.unfold depth h).Proper Leaf.Sound := by
  induction depth generalizing h with
  | zero => exact absurd whole (a.not_wholeWithin_zero h)
  | succ depth ih =>
    obtain ⟨v, seen, wholes⟩ := wholeWithin_succ_iff.mp whole
    obtain ⟨own, shown, parts⟩ := held
    obtain rfl := Except.ok.inj (seen.symm.trans shown)
    have proper := own.sound seen
    have each (k : Handle) (part : k ∈ v.parts) := ih (parts k part) (wholes k part)
    rw [unfold_succ, seen]
    cases v with
    | leaf l => exact .leaf proper
    | func f xs =>
      obtain ⟨held, shown, -⟩ := parts f List.mem_cons_self
      obtain ⟨name, rfl⟩ := held.view_atom proper.1 shown
      have deep : 0 < depth := by
        rcases depth with _ | depth
        · exact absurd (wholes f List.mem_cons_self) (a.not_wholeWithin_zero f)
        · exact Nat.succ_pos depth
      have named := unfold_of_view_atom shown deep
      show (Tree.func (a.unfold depth f) (xs.map (a.unfold depth))).Proper Leaf.Sound
      rw [named]
      exact .func name (List.forall_mem_map.mpr fun k among => each k (List.mem_cons_of_mem f among))
    | list xs => exact .list (List.forall_mem_map.mpr each)
    | tuple xs => exact .tuple (List.forall_mem_map.mpr each)

theorem HoldsTerm.proper (held : a.HoldsTerm h) : (a.tree h).Proper Leaf.Sound :=
  held.proper_unfold (live_iff.mp held.live)

/-- Held terms with finite floats and with names of variables have texts. The texts of two of them are the same
exactly if the terms are once each float of `10 ^ 16` or more in magnitude is the integer with the same text.
So terms without such floats have the same text only if they are the same. -/
theorem display?_eq_iff (left : a.HoldsTerm h) (right : b.HoldsTerm k)
    (readable : (a.tree h).Over Leaf.Readable) (readable' : (b.tree k).Over Leaf.Readable) :
    ∃ s s', a.display? h = some s ∧ b.display? k = some s' ∧
      (s = s' ↔ (a.tree h).levelled = (b.tree k).levelled) ∧
      ((a.tree h).Over (fun l => l.isGreat = false) → (b.tree k).Over (fun l => l.isGreat = false) →
        (s = s' ↔ a.tree h = b.tree k)) := by
  obtain ⟨s, has⟩ := left.proper.exists_text?
  obtain ⟨s', has'⟩ := right.proper.exists_text?
  have texts : String.ofList s = String.ofList s' ↔ (a.tree h).levelled = (b.tree k).levelled := by
    rw [String.ofList_inj]
    exact Tree.text?_eq_iff (left.proper.and_over readable) (right.proper.and_over readable') has has'
  refine ⟨String.ofList s, String.ofList s', ?_, ?_, texts, ?_⟩
  · rw [display?_eq_text?, has]
    rfl
  · rw [display?_eq_text?, has']
    rfl
  · intro small small'
    rw [texts, Tree.levelled_eq_self small, Tree.levelled_eq_self small']

/-- A list of the number and a variable. -/
def besideVariable (number : Handle) : Operation :=
  .list [.term number, .term (.short .var ⟨"X", by decide⟩)]

/-- The handle of the list. -/
def besideHandle : Handle := .node .list ⟨⟨0⟩, 0, 2⟩

/-- A float and an integer of the same value have different texts. -/
theorem display?_eq_iff_one :
    (besideVariable (.real ⟨0x3ff0000000000000⟩)).alone.HoldsTerm besideHandle ∧
      (besideVariable (.int 1)).alone.HoldsTerm besideHandle ∧
      ∃ s s', (besideVariable (.real ⟨0x3ff0000000000000⟩)).alone.display? besideHandle = some s ∧
        (besideVariable (.int 1)).alone.display? besideHandle = some s' ∧ s ≠ s' := by
  have float : (besideVariable (.real ⟨0x3ff0000000000000⟩)).alone.HoldsTerm besideHandle :=
    holdsTerm_alone rfl rfl ⟨by decide, by decide⟩ (by decide) rfl rfl (by decide)
  have integer : (besideVariable (.int 1)).alone.HoldsTerm besideHandle :=
    holdsTerm_alone rfl rfl ⟨by decide, by decide⟩ (by decide) rfl rfl (by decide)
  have floatTree : (besideVariable (.real ⟨0x3ff0000000000000⟩)).alone.tree besideHandle =
      .list [.leaf (.real ⟨0x3ff0000000000000⟩), .leaf (.var "X")] := rfl
  have integerTree : (besideVariable (.int 1)).alone.tree besideHandle =
      .list [.leaf (.int 1), .leaf (.var "X")] := rfl
  have both {good : Leaf → Prop} {number : Leaf} (first : good number) (second : good (.var "X")) :
      (Tree.list [.leaf number, .leaf (.var "X")]).Over good :=
    .list (List.forall_mem_cons.mpr ⟨.leaf first, List.forall_mem_singleton.mpr (.leaf second)⟩)
  have named : Leaf.Readable (.var "X") := ⟨'X', [], rfl, .inl rfl, nofun⟩
  have finite : Leaf.Readable (.real ⟨0x3ff0000000000000⟩) := by
    show Binary64.isFinite _ = true
    decide
  obtain ⟨s, s', shown, shown', -, same⟩ := display?_eq_iff float integer (by rw [floatTree]; exact both finite named)
    (by rw [integerTree]; exact both trivial named)
  refine ⟨float, integer, s, s', shown, shown', ?_⟩
  rw [floatTree, integerTree] at same
  intro texts
  have trees := (same (both (by decide) rfl) (both rfl rfl)).mp texts
  cases trees

/-- The texts of a float and of an integer that are both `10 ^ 16` are the same. -/
theorem display?_tenToSixteen :
    (create ⟨0⟩ ⟨0⟩).HoldsTerm (.real Binary64.tenToSixteen) ∧
      (create ⟨0⟩ ⟨0⟩).HoldsTerm (.int 10000000000000000) ∧
      ((create ⟨0⟩ ⟨0⟩).tree (.real Binary64.tenToSixteen)).Over Leaf.Readable ∧
      ((create ⟨0⟩ ⟨0⟩).tree (.int 10000000000000000)).Over Leaf.Readable ∧
      (create ⟨0⟩ ⟨0⟩).display? (.real Binary64.tenToSixteen) = some "10000000000000000" ∧
      (create ⟨0⟩ ⟨0⟩).display? (.int 10000000000000000) = some "10000000000000000" ∧
      (create ⟨0⟩ ⟨0⟩).tree (.real Binary64.tenToSixteen) ≠
        (create ⟨0⟩ ⟨0⟩).tree (.int 10000000000000000) := by
  have float : (create ⟨0⟩ ⟨0⟩).tree (.real Binary64.tenToSixteen) =
      .leaf (.real Binary64.tenToSixteen) := rfl
  have integer : (create ⟨0⟩ ⟨0⟩).tree (.int 10000000000000000) = .leaf (.int 10000000000000000) := rfl
  have finite : Leaf.Readable (.real Binary64.tenToSixteen) := by
    show Binary64.isFinite _ = true
    decide
  refine ⟨holdsTerm_of_inline rfl, holdsTerm_of_inline rfl, .leaf finite, .leaf trivial, ?_, ?_, ?_⟩
  · rw [display?_eq_text?, float]
    decide +kernel
  · rw [display?_eq_text?, integer]
    decide +kernel
  · rw [float, integer]
    intro same
    cases same

end Arena

end PrologWire

import PrologWire.Proofs.Arena.Items
import PrologWire.Proofs.Arena.TermTrees

/-!
# Handles that stand for terms

A handle stands for a term if its tree is the tree of the term. It keeps standing for the term while the
storages grow, as far as offsets of 32 bits reach, and constructors make handles for terms out of handles
for their parts.
-/

namespace PrologWire

namespace Arena

variable {a b : Arena} {h : Handle} {t : Term String}

/-- Offsets of 32 bits reach everything in the storages. -/
def IsSmall (a : Arena) : Prop := a.bytes.size < UInt32.size ∧ a.slots.size < UInt32.size

theorem Grows.isSmall (grows : a.Grows b) (small : b.IsSmall) : a.IsSmall :=
  ⟨Nat.lt_of_le_of_lt grows.size_bytes_le small.1, Nat.lt_of_le_of_lt grows.size_slots_le small.2⟩

/-- A tree in which nothing is broken is the same farther down, and in any arena where handles show what
they did. -/
theorem unfold_eq_of_view (kept : ∀ h v, a.view h = .ok v → b.view h = .ok v) {depth depth' : Nat}
    (deep : depth ≤ depth') (whole : (a.unfold depth h).Over fun _ => True) :
    b.unfold depth' h = a.unfold depth h := by
  -- at depth zero there would be something broken, so the tree ends before its depth does
  induction depth generalizing depth' h with
  | zero => cases whole
  | succ depth ih =>
    obtain ⟨deeper, rfl⟩ : ∃ deeper, depth' = deeper + 1 := ⟨depth' - 1, by omega⟩
    have within : depth ≤ deeper := Nat.le_of_succ_le_succ deep
    have parts {hs : List Handle} (each : ∀ s ∈ hs.map (a.unfold depth), s.Over fun _ => True) :
        hs.map (b.unfold deeper) = hs.map (a.unfold depth) :=
      List.map_congr_left fun k among => ih within (each _ (List.mem_map_of_mem among))
    rw [unfold_succ] at whole ⊢
    rw [unfold_succ]
    cases seen : a.view h with
    | error cause =>
      rw [seen] at whole
      cases whole
    | ok v =>
      rw [seen] at whole
      rw [kept h v seen]
      cases v with
      | leaf l => rfl
      | func f xs =>
        cases whole with
        | func functor args => exact congrArg₂ Tree.func (ih within functor) (parts args)
      | list xs =>
        cases whole with
        | list elems => exact congrArg Tree.list (parts elems)
      | tuple xs =>
        cases whole with
        | tuple elems => exact congrArg Tree.tuple (parts elems)

/-- The handle stands for the term, as long as offsets reach. Its depth leaves room for a handle above
it, for which there will be one slot more. -/
def Stores (a : Arena) (h : Handle) (t : Term String) : Prop :=
  a.IsSmall → a.unfold (a.slots.size + 1) h = t.tree

namespace Stores

/-- A handle keeps standing for its term. -/
theorem unfold_of_grows (stored : a.Stores h t) (orderly : a.Orderly) (grows : a.Grows b)
    (small : b.IsSmall) {depth : Nat} (deep : a.slots.size + 1 ≤ depth) :
    b.unfold depth h = t.tree := by
  have here := stored (grows.isSmall small)
  have whole : (a.unfold (a.slots.size + 1) h).Over fun _ => True := here ▸ t.over_tree
  have kept (k : Handle) (v : View Handle) (seen : a.view k = .ok v) : b.view k = .ok v :=
    view_of_keeps (fun e _ => grows.keeps orderly e) seen
  rw [unfold_eq_of_view kept deep whole, here]

theorem grow (stored : a.Stores h t) (orderly : a.Orderly) (grows : a.Grows b) : b.Stores h t :=
  fun small => stored.unfold_of_grows orderly grows small (Nat.succ_le_succ grows.size_slots_le)

theorem tree_eq (stored : a.Stores h t) (orderly : a.Orderly) (small : a.IsSmall) :
    a.tree h = t.tree :=
  stored.unfold_of_grows orderly (.refl a) small (Nat.le_succ _)

/-- A handle that shows all of a term stands for it. -/
theorem of_view {v : View Handle} (seen : a.IsSmall → a.view h = .ok v)
    (shows : ∀ f : Handle → Tree, Tree.ofView (.ok (v.map f)) = t.tree) : a.Stores h t := by
  intro small
  rw [unfold_succ, seen small]
  exact shows _

end Stores

/-! ## What constructors make of terms -/

theorem ofView_ofText_atom (name : String) (f : Handle → Tree) :
    Tree.ofView (.ok ((View.ofText .atom name).map f)) = .ofName name := by
  unfold View.ofText Tree.ofName
  by_cases empty : name = "[]"
  · rw [if_pos ⟨rfl, empty⟩, if_pos empty]
    rfl
  · rw [if_neg (fun both => empty both.2), if_neg empty]
    rfl

/-- A handle that shows a name has no parts. -/
theorem unfold_of_view_atom {name : String} (shown : a.view h = .ok (.ofText .atom name))
    {depth : Nat} (deep : 0 < depth) : a.unfold depth h = .ofName name := by
  obtain ⟨below, rfl⟩ := Nat.exists_eq_add_one.mpr deep
  rw [unfold_succ, shown]
  exact ofView_ofText_atom name _

theorem ofView_ofInteger (value : Int) (f : Handle → Tree) :
    Tree.ofView (.ok ((View.ofInteger value).map f)) = .leaf (Term.integerLeaf value) := by
  unfold View.ofInteger Term.integerLeaf int64?
  split <;> rfl

theorem stores_int (a : Arena) (value : Int64) : a.Stores (.int value) (.integer value.toInt) := by
  refine .of_view (fun _ => rfl) fun f => ?_
  rw [Term.tree, Term.integerLeaf_toInt]
  rfl

section

variable (orderly : a.Orderly) (distinct : a.ids.Nodup)

include orderly distinct

theorem stores_atom (name : String) : (a.atom name).2.Stores (a.atom name).1 (.atom name) := by
  intro small
  exact unfold_of_view_atom (view_text orderly distinct small.1 fun e _ => .refl e _)
    (Nat.succ_pos _)

theorem stores_var (name : String) : (a.var name).2.Stores (a.var name).1 (.var name) := by
  refine .of_view (v := .ofText .var name) (fun small => ?_) fun f => ?_
  · exact view_text orderly distinct small.1 fun e _ => .refl e _
  · rw [View.ofText, if_neg (by simp)]
    rfl

theorem stores_integer (value : Int) :
    (a.integer value).2.Stores (a.integer value).1 (.integer value) := by
  refine .of_view (fun small => ?_) fun f => ofView_ofInteger value f
  exact view_integer orderly distinct small.1 fun e _ => .refl e _

end

/-! ### Compounds and lists -/

/-- Handles as arguments that are there already. -/
theorem items_term (hs : List Handle) :
    Argument.items (hs.map .term) = hs.map Item.ofHandle := by
  induction hs with
  | nil => rfl
  | cons h rest ih => rw [List.map_cons, List.map_cons, Argument.items, ih]; rfl

theorem isPlain_term (hs : List Handle) : ∀ arg ∈ hs.map Argument.term, arg.isPlain := by
  intro arg among
  obtain ⟨h, -, rfl⟩ := List.mem_map.mp among
  rfl

theorem appends_map_ofHandle (hs : List Handle) :
    ∀ item ∈ hs.map Item.ofHandle, item.Appends := by
  intro item among
  obtain ⟨h, -, rfl⟩ := List.mem_map.mp among
  exact Item.appends_ofHandle h

theorem grows_func (a : Arena) (functor : String) (hs : List Handle) :
    a.Grows (a.func functor (hs.map .ofHandle)).2 :=
  (Construction.func functor).grows_build (fun _ other => by cases other) (appends_map_ofHandle hs) a

theorem grows_list (a : Arena) (hs : List Handle) : a.Grows (a.list (hs.map .ofHandle)).2 :=
  Construction.list.grows_build (fun _ other => by cases other) (appends_map_ofHandle hs) a

/-- The functor takes a slot. -/
theorem lt_slots_func (a : Arena) (functor : String) (h : Handle) (rest : List Handle) :
    a.slots.size < (a.func functor ((h :: rest).map .ofHandle)).2.slots.size := by
  refine Nat.lt_of_lt_of_le ?_ (grows_pushItems (appends_map_ofHandle (h :: rest)) _).size_slots_le
  show _ < ((a.text .atom functor).2.slots.push _).size
  rw [Array.size_push, slots_text]
  exact Nat.lt_succ_self _

/-- The first element takes a slot. -/
theorem lt_slots_list (a : Arena) (h : Handle) (rest : List Handle) :
    a.slots.size < (a.list ((h :: rest).map .ofHandle)).2.slots.size := by
  refine Nat.lt_of_lt_of_le ?_ (grows_pushItems (appends_map_ofHandle rest) _).size_slots_le
  show _ < (a.slots.push h).size
  rw [Array.size_push]
  exact Nat.lt_succ_self _

/-- An argument that is there already is given as it is. -/
theorem eq_of_given_term (hs : List Handle) {ks : List Handle}
    (given : List.Forall₂ (Argument.Given b) (hs.map .term) ks) : hs = ks := by
  rw [List.forall₂_map_left_iff] at given
  rw [← List.forall₂_eq_eq_eq]
  refine given.imp ?_
  rintro h k ⟨⟩
  rfl

/-- Handles that stand for terms do so below a handle that was made later. -/
theorem map_unfold_of_stores {hs : List Handle} {ts : List (Term String)}
    (parts : List.Forall₂ a.Stores hs ts) (orderly : a.Orderly) (grows : a.Grows b)
    (small : b.IsSmall) {depth : Nat} (deep : a.slots.size + 1 ≤ depth) :
    hs.map (b.unfold depth) = Term.treeAll ts := by
  induction parts with
  | nil => rfl
  | cons first _ ih =>
    rw [List.map_cons, Term.treeAll, first.unfold_of_grows orderly grows small deep, ih]

section

variable {hs : List Handle} {ts : List (Term String)} (orderly : a.Orderly) (distinct : a.ids.Nodup)
  (parts : List.Forall₂ a.Stores hs ts)

include orderly distinct parts

/-- A compound of handles that stand for terms stands for the compound of the terms. -/
theorem stores_func (functor : String) :
    (a.func functor (hs.map .ofHandle)).2.Stores (a.func functor (hs.map .ofHandle)).1
      (.compound functor ts) := by
  have grows := a.grows_func functor hs
  cases parts with
  | nil => exact stores_atom orderly distinct functor
  | @cons h t rest _ first others =>
    have more := a.lt_slots_func functor h rest
    rw [← items_term] at grows more ⊢
    intro small
    obtain ⟨name, ks, seen, shown, given⟩ :=
      Operation.given_func (b := (a.func functor (Argument.items ((h :: rest).map .term))).2)
        (isPlain_term (h :: rest)) orderly distinct small.1 small.2 (fun e _ => .refl e _)
    obtain rfl := eq_of_given_term (h :: rest) given
    -- one slot more is room for the functor and the arguments one level down
    have args := map_unfold_of_stores (.cons first others) orderly grows small more
    have named := unfold_of_view_atom shown (Nat.zero_lt_of_lt more)
    rw [unfold_succ, seen]
    exact congrArg₂ Tree.func named args

/-- A list of handles that stand for terms stands for the list of the terms. -/
theorem stores_list :
    (a.list (hs.map .ofHandle)).2.Stores (a.list (hs.map .ofHandle)).1 (.list ts) := by
  have grows := a.grows_list hs
  cases parts with
  | nil => exact fun _ => rfl
  | @cons h t rest _ first others =>
    have more := a.lt_slots_list h rest
    rw [← items_term] at grows more ⊢
    intro small
    obtain ⟨ks, seen, given⟩ :=
      Operation.given_list (b := (a.list (Argument.items ((h :: rest).map .term))).2)
        (isPlain_term (h :: rest)) orderly distinct small.1 small.2 (fun e _ => .refl e _)
    obtain rfl := eq_of_given_term (h :: rest) given
    rw [unfold_succ, seen]
    exact congrArg Tree.list (map_unfold_of_stores (.cons first others) orderly grows small more)

end

end Arena

end PrologWire

import PrologWire.Proofs.Arena.Building
import PrologWire.Proofs.Arena.Held
import PrologWire.Proofs.Json.Grammar
import PrologWire.Proofs.Sentence.Rewriting

/-!
# Copies of terms

The calls for a term that an arena holds build it again in any other arena, and the calls for a term that
was built are those that built it, rewritten. For the one direction the term in the first arena has to be
there as `Term.tree` has it, which is so of whatever the arena holds; for the other the calls for `Term.tree`
are compared with those that `Term.calls` has.
-/

namespace PrologWire

namespace Term

/-! ## The calls for the tree of a term -/

/-- The call for the leaf of an integer. -/
theorem call_integerLeaf (value : Int) : (integerLeaf value).call = .ok (Call.ofInteger value) := by
  unfold integerLeaf Call.ofInteger
  cases int64? value with
  | some small => rfl
  | none =>
    dsimp only
    rw [Leaf.call, Arena.integerOfDigits, Text.readInt?_toString]

/-- The calls for the tree of an atom. -/
theorem exists_script_ofName (name : String) :
    ∃ cs, (Tree.ofName name).script = ⟨cs, none⟩ ∧ cs.flatMap Call.spelled = Call.ofName name := by
  unfold Tree.ofName Call.ofName
  split
  · exact ⟨[.emptyList], rfl, rfl⟩
  · exact ⟨[.atom name], rfl, rfl⟩

mutual

/-- The calls for the tree of a term are those for the term. -/
theorem exists_script_tree : ∀ t : Term String,
    ∃ cs, t.tree.script = ⟨cs, none⟩ ∧ cs.flatMap Call.spelled = t.calls
  | atom name => exists_script_ofName name
  | integer value => by
    refine ⟨[Call.ofInteger value], ?_, ?_⟩
    · rw [tree, Tree.script, call_integerLeaf]
      rfl
    · rw [calls, Call.ofInteger]
      split <;> rfl
  | float value => ⟨[.float value], rfl, rfl⟩
  | var name => ⟨[.var name], rfl, rfl⟩
  | compound functor [] => exists_script_ofName functor
  | compound functor (t :: rest) => by
    obtain ⟨cs, script, spelled⟩ := exists_script_treeAll (t :: rest)
    refine ⟨.openTerm functor :: (cs ++ [.closeTerm]), ?_, ?_⟩
    · show Tree.script (.func (.ofName functor) (treeAll (t :: rest))) = _
      rw [Tree.script, Tree.functorName_ofName, script]
      rfl
    · rw [List.flatMap_cons, List.flatMap_append, spelled]
      rfl
  | list [] => ⟨[.emptyList], rfl, rfl⟩
  | list (t :: rest) => by
    obtain ⟨cs, script, spelled⟩ := exists_script_treeAll (t :: rest)
    refine ⟨.openList :: (cs ++ [.closeList]), ?_, ?_⟩
    · show Tree.script (.list (treeAll (t :: rest))) = _
      rw [Tree.script, script]
      · rfl
      · exact nofun
    · rw [List.flatMap_cons, List.flatMap_append, spelled]
      rfl

theorem exists_script_treeAll : ∀ ts : List (Term String),
    ∃ cs, Tree.scriptAll (treeAll ts) = ⟨cs, none⟩ ∧ cs.flatMap Call.spelled = callsAll ts
  | [] => ⟨[], rfl, rfl⟩
  | t :: rest => by
    obtain ⟨cs, script, spelled⟩ := exists_script_tree t
    obtain ⟨cs', scripts, spelleds⟩ := exists_script_treeAll rest
    refine ⟨cs ++ cs', ?_, ?_⟩
    · rw [treeAll, Tree.scriptAll, script, scripts]
      rfl
    · rw [List.flatMap_append, spelled, spelleds, callsAll]

end

/-! ## Terms that are in an arena already -/

theorem tree_named (name : String) : (named name : Term String).tree = .ofName name := by
  unfold named
  split
  · next empty =>
    rw [empty]
    rfl
  · rfl

mutual

/-- What a term is in an arena has the tree of the term. -/
theorem tree_stored : ∀ t : Term String, t.stored.tree = t.tree
  | atom name => tree_named name
  | integer _ | float _ | var _ => rfl
  | compound functor [] => tree_named functor
  | compound functor (t :: rest) => by
    show Tree.func (.ofName functor) (treeAll (storedAll (t :: rest))) = _
    rw [treeAll_storedAll (t :: rest)]
    rfl
  | list elems => by
    rw [stored, tree, treeAll_storedAll elems]
    rfl

theorem treeAll_storedAll : ∀ ts : List (Term String), treeAll (storedAll ts) = treeAll ts
  | [] => rfl
  | t :: rest => by rw [storedAll, treeAll, tree_stored t, treeAll_storedAll rest, treeAll]

end

end Term

/-- The script of a tree makes the calls of its term. -/
theorem Tree.denotes_script {t : Tree} {u : Term String} (term : t.term? = some u) :
    t.script.Denotes (some [u]) :=
  ⟨(failure_script_eq_none t).mpr (Option.isSome_of_mem term), follow_script term⟩

namespace Builder

variable {a start : Arena} {h : Handle} {t : Term String}

/-- The calls for a handle with the tree of a term build the term again. -/
theorem exists_copy (same : a.tree h = t.tree) (orderly : start.Orderly) (distinct : start.ids.Nodup) :
    ∃ k b b', a.printTerm h call (new start) = (.ok (), b) ∧ b.fullStop = (.ok (), b') ∧
      b'.terms = [k] ∧ start.Grows b'.arena ∧ (b'.arena.IsSmall → b'.arena.tree k = a.tree h) := by
  have denotes : (a.tree h).script.Denotes (some [t.stored]) :=
    Tree.denotes_script (by rw [same]; exact t.term?_tree)
  obtain ⟨ts, b, terms, run, here⟩ | ⟨cause, b, -, -, refused⟩ :=
    denotes.run_cases (keepsUp start orderly distinct) (at_new start)
  · obtain rfl := Option.some.inj terms
    obtain ⟨k, stops, stored⟩ := here.fullStop_ok
    refine ⟨k, b, _, ?_, stops, rfl, here.grows, fun small => ?_⟩
    · rw [a.printTerm_eq_run_script]
      exact run
    · rw [same, stored.tree_eq (here.grows.orderly orderly) small, t.tree_stored]
  · cases refused [t.stored] rfl

/-- Calls for a term build it, and the calls for what was built are the same when both are rewritten. -/
theorem exists_again {calls : List Call} (describes : Term.ofCalls? calls = some [t])
    (orderly : start.Orderly) (distinct : start.ids.Nodup) :
    ∃ k b b', playAll call (new start) calls = (calls.map (·, .ok ()), b) ∧
      b.fullStop = (.ok (), b') ∧ b'.terms = [k] ∧
      (b'.arena.IsSmall → ∃ again : List Call,
        (∀ {σ : Type} (consume : σ → Call → Answer × σ) (s : σ),
          b'.arena.printTerm k consume s = (⟨again, none⟩ : Script).run consume s) ∧
        again.flatMap Call.spelled = Call.rewritten (calls.flatMap Call.spelled)) := by
  obtain ⟨b, played, here⟩ := (keepsUp start orderly distinct).playAll_ok (at_new start)
    (Term.ofCalls?_eq_some.mp describes) rfl
  obtain ⟨k, stops, stored⟩ := here.fullStop_ok
  refine ⟨k, b, _, played, stops, rfl, fun small => ?_⟩
  obtain ⟨again, script, spelled⟩ := t.exists_script_tree
  refine ⟨again, fun consume s => ?_, ?_⟩
  · rw [Arena.printTerm_eq_run_script, stored.tree_eq (here.grows.orderly orderly) small, script]
  · rw [spelled, Call.rewritten_of_ofCalls? describes]

/-- Whatever handle has the tree of a term, in any arena, the term is built again in any other arena by its
calls and a full stop, as one term with the same tree; and every term that an arena holds has such a tree, if
there are no strings and tuples in it. And whatever calls build a term, the calls for what was built are the
same up to spelling: as many rewritten calls in the same order. -/
theorem printTerm_inverse {id : ArenaId} {bottom : EpochId} {ops : List Operation}
    (reached : Operation.performAll ops (.create id bottom) = start) (distinct : start.ids.Nodup) :
    (∀ (a : Arena) (h : Handle) (t : Term String), a.tree h = t.tree →
      ∃ k b b', a.printTerm h call (new start) = (.ok (), b) ∧ b.fullStop = (.ok (), b') ∧
        b'.terms = [k] ∧ start.Grows b'.arena ∧ (b'.arena.IsSmall → b'.arena.tree k = a.tree h)) ∧
    (∀ (a : Arena) (h : Handle), a.HoldsTerm h → (a.tree h).Plain →
      ∃ k b b', a.printTerm h call (new start) = (.ok (), b) ∧ b.fullStop = (.ok (), b') ∧
        b'.terms = [k] ∧ start.Grows b'.arena ∧ (b'.arena.IsSmall → b'.arena.tree k = a.tree h)) ∧
    ∀ (calls : List Call) (t : Term String), Term.ofCalls? calls = some [t] →
      ∃ k b b', playAll call (new start) calls = (calls.map (·, .ok ()), b) ∧
        b.fullStop = (.ok (), b') ∧ b'.terms = [k] ∧
        (b'.arena.IsSmall → ∃ again : List Call,
          (∀ {σ : Type} (consume : σ → Call → Answer × σ) (s : σ),
            b'.arena.printTerm k consume s = (⟨again, none⟩ : Script).run consume s) ∧
          again.flatMap Call.spelled = Call.rewritten (calls.flatMap Call.spelled)) := by
  have orderly : start.Orderly := by
    rw [← reached]
    exact (Operation.course_all ops _).orderly (Arena.orderly_create id bottom)
  refine ⟨fun a h t same => exists_copy same orderly distinct, fun a h held plain => ?_,
    fun calls t describes => exists_again describes orderly distinct⟩
  obtain ⟨t, same⟩ := held.exists_term plain
  exact exists_copy same orderly distinct

/-- The handle of a great integer, and that of a compound of it and the atom `[]`. -/
def greatInteger : Handle := .bigint ⟨⟨0⟩, 0, 21⟩

def greatPair : Handle := .node .func ⟨⟨0⟩, 0, 3⟩

/-- The arenas in which these are made, one after the other. -/
def withGreatInteger : Arena :=
  ((Operation.integer 100000000000000000000).perform (.create ⟨0⟩ ⟨0⟩)).2

def withGreatPair : Arena :=
  ((Operation.func "f" [.term greatInteger, .name "[]"]).perform withGreatInteger).2

theorem holdsTerm_greatPair : withGreatPair.HoldsTerm greatPair := by
  have start := Arena.orderly_create ⟨0⟩ ⟨0⟩
  have first := (Operation.integer 100000000000000000000).course (.create ⟨0⟩ ⟨0⟩)
  have second := (Operation.func "f" [.term greatInteger, .name "[]"]).course withGreatInteger
  have integer : withGreatPair.Holds greatInteger :=
    .made start (by decide) (rfl : (Operation.integer 100000000000000000000).perform (.create ⟨0⟩ ⟨0⟩) =
      (.made greatInteger, withGreatInteger)) rfl ⟨by decide +kernel, by decide +kernel⟩ second
      (by decide +kernel)
  have compound : withGreatPair.Holds greatPair :=
    .made (first.orderly start) (by decide +kernel)
      (rfl : (Operation.func "f" [.term greatInteger, .name "[]"]).perform withGreatInteger =
        (.made greatPair, withGreatPair)) rfl ⟨by decide +kernel, by decide +kernel⟩ (.stay _)
      (by decide +kernel)
  have leaf {h : Handle} {v : View Handle} (held : withGreatPair.Holds h)
      (seen : withGreatPair.view h = .ok v) (none : v.parts = []) : withGreatPair.HoldsTerm h :=
    .of_view held seen fun k part => absurd (none ▸ part) List.not_mem_nil
  have shows : withGreatPair.view greatPair =
      .ok (.func (.short .atom ⟨"f", by decide⟩) [greatInteger, .nil]) := by
    decide +kernel
  have digits : withGreatPair.view greatInteger = .ok (.leaf (.bigint "100000000000000000000")) := by
    decide +kernel
  apply Arena.HoldsTerm.of_view compound shows
  intro k part
  rcases List.mem_cons.mp part with rfl | part
  · exact leaf (.inline rfl) rfl rfl
  · rcases List.mem_cons.mp part with rfl | part
    · exact leaf integer digits rfl
    · obtain rfl := List.mem_singleton.mp part
      exact leaf (.inline rfl) rfl rfl

/-- Calls for a list of an integer and an atom `[]`. -/
def spelledOut : List Call := [.openList, .bigint 5, .openTerm "[]", .closeTerm, .closeList]

theorem printTerm_inverse_greatPair :
    (∃ k b b', withGreatPair.printTerm greatPair call (new (.create ⟨1⟩ ⟨1⟩)) = (.ok (), b) ∧
      b.fullStop = (.ok (), b') ∧ b'.terms = [k] ∧
      (b'.arena.IsSmall → b'.arena.tree k =
        .func (.leaf (.atom "f")) [.leaf (.bigint "100000000000000000000"), .list []])) ∧
    ∃ k b b', playAll call (new (.create ⟨1⟩ ⟨1⟩)) spelledOut = (spelledOut.map (·, .ok ()), b) ∧
      b.fullStop = (.ok (), b') ∧ b'.terms = [k] ∧
      (b'.arena.IsSmall → ∃ again : List Call,
        (∀ {σ : Type} (consume : σ → Call → Answer × σ) (s : σ),
          b'.arena.printTerm k consume s = (⟨again, none⟩ : Script).run consume s) ∧
        again.flatMap Call.spelled = [.openList, .int 5, .openList, .closeList, .closeList]) := by
  obtain ⟨-, copies, calls⟩ := @printTerm_inverse (.create ⟨1⟩ ⟨1⟩) ⟨1⟩ ⟨1⟩ [] rfl (by decide)
  have tree : withGreatPair.tree greatPair =
      .func (.leaf (.atom "f")) [.leaf (.bigint "100000000000000000000"), .list []] := rfl
  refine ⟨?_, ?_⟩
  · obtain ⟨k, b, b', printed, stops, terms, -, same⟩ := copies _ _ holdsTerm_greatPair (by
      rw [tree]
      refine .func (.leaf Kind.noConfusion) ?_
      intro x among
      rcases List.mem_cons.mp among with rfl | among
      · exact .leaf Kind.noConfusion
      · rw [List.mem_singleton.mp among]
        exact .list fun _ none => absurd none List.not_mem_nil)
    exact ⟨k, b, b', printed, stops, terms, same⟩
  · obtain ⟨k, b, b', played, stops, terms, same⟩ := calls _ _ (rfl : Term.ofCalls? spelledOut =
      some [.list [.integer 5, .compound "[]" []]])
    exact ⟨k, b, b', played, stops, terms, same⟩

end Builder

end PrologWire

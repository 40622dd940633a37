import Mathlib.Data.List.FinRange
import Mathlib.Data.List.Perm.Subperm
import PrologWire.Proofs.Arena.OrderLaws
import PrologWire.Proofs.Arena.Stored

/-!
# Live terms

A handle is live if it resolves and the handles of all subterms do. The depth that trees are cut off at
takes nothing away from live terms: below a term all handles are in slots, and a handle that is met again
on the way down would lead down forever, so no way down a live term is longer than the slot storage.
-/

namespace PrologWire

/-- The parts of a level with other parts in their place. -/
@[simp] theorem View.parts_map {α β : Type} (f : α → β) (v : View α) :
    (v.map f).parts = v.parts.map f := by
  cases v <;> rfl

/-- A term is whole if its parts are. -/
theorem Tree.over_ofView_iff (v : View Tree) :
    (Tree.ofView (.ok v)).Over (fun _ => True) ↔ ∀ t ∈ v.parts, t.Over fun _ => True := by
  constructor
  · intro whole
    cases v with
    | leaf l => exact fun t part => absurd part List.not_mem_nil
    | func f xs =>
      cases whole with
      | func functor args => exact List.forall_mem_cons.mpr ⟨functor, args⟩
    | list xs =>
      cases whole with
      | list elems => exact elems
    | tuple xs =>
      cases whole with
      | tuple elems => exact elems
  · intro parts
    cases v with
    | leaf l => exact .leaf trivial
    | func f xs =>
      obtain ⟨functor, args⟩ := List.forall_mem_cons.mp parts
      exact .func functor args
    | list xs => exact .list parts
    | tuple xs => exact .tuple parts

namespace Arena

variable {a : Arena} {h k : Handle} {v : View Handle} {depth : Nat}

/-- The handle resolves, and so do the handles of all subterms. -/
inductive Live (a : Arena) : Handle → Prop where
  | of_view {h : Handle} {v : View Handle} :
    a.view h = .ok v → (∀ k ∈ v.parts, Live a k) → Live a h

/-- All subterms resolve, and none is deeper down than that. -/
def WholeWithin (a : Arena) (depth : Nat) (h : Handle) : Prop :=
  (a.unfold depth h).Over fun _ => True

theorem not_wholeWithin_zero (a : Arena) (h : Handle) : ¬a.WholeWithin 0 h := by
  intro whole
  cases whole

/-- A term is whole within a depth if its parts are within a depth that is one less. -/
theorem wholeWithin_succ_iff :
    a.WholeWithin (depth + 1) h ↔ ∃ v, a.view h = .ok v ∧ ∀ k ∈ v.parts, a.WholeWithin depth k := by
  rw [WholeWithin, unfold_succ]
  cases seen : a.view h with
  | error cause =>
    constructor
    · intro whole
      cases whole
    · rintro ⟨v, shown, -⟩
      cases shown
  | ok v =>
    rw [Except.map, Tree.over_ofView_iff, View.parts_map, List.forall_mem_map]
    constructor
    · intro parts
      exact ⟨v, rfl, parts⟩
    · rintro ⟨w, shown, parts⟩
      obtain rfl := Except.ok.inj shown
      exact parts

theorem WholeWithin.mono {deeper : Nat} (whole : a.WholeWithin depth h) (le : depth ≤ deeper) :
    a.WholeWithin deeper h := by
  rw [WholeWithin, unfold_eq_of_view (fun _ _ shown => shown) le whole]
  exact whole

/-- Within some depth all of finitely many terms are whole if each is within one of its own. -/
theorem exists_wholeWithin_all {hs : List Handle}
    (each : ∀ k ∈ hs, ∃ depth, a.WholeWithin depth k) :
    ∃ depth, ∀ k ∈ hs, a.WholeWithin depth k := by
  induction hs with
  | nil => exact ⟨0, fun k among => absurd among List.not_mem_nil⟩
  | cons k hs ih =>
    obtain ⟨⟨first, whole⟩, others⟩ := List.forall_mem_cons.mp each
    obtain ⟨rest, wholes⟩ := ih others
    refine ⟨max first rest, List.forall_mem_cons.mpr ⟨whole.mono (Nat.le_max_left first rest), ?_⟩⟩
    exact fun j among => (wholes j among).mono (Nat.le_max_right first rest)

/-- A term is live if and only if it is whole within some depth. -/
theorem live_iff_exists_wholeWithin : a.Live h ↔ ∃ depth, a.WholeWithin depth h := by
  constructor
  · intro live
    induction live with
    | @of_view h v seen _ ih =>
      obtain ⟨depth, parts⟩ := exists_wholeWithin_all ih
      exact ⟨depth + 1, wholeWithin_succ_iff.mpr ⟨v, seen, parts⟩⟩
  · rintro ⟨depth, whole⟩
    induction depth generalizing h with
    | zero => exact absurd whole (a.not_wholeWithin_zero h)
    | succ depth ih =>
      obtain ⟨v, seen, parts⟩ := wholeWithin_succ_iff.mp whole
      exact .of_view seen fun k part => ih (parts k part)

/-! ## The depth of live terms -/

/-- What is in a stretch of the slot storage is in the slot storage. -/
theorem mem_slots_of_slotsAt {s : Slice} {hs : List Handle} (given : a.slotsAt s = .ok hs)
    (among : k ∈ hs) : k ∈ a.slots.toList := by
  unfold slotsAt at given
  cases found : a.locate (·.slotStart) a.slots.size s with
  | error fault =>
    rw [found] at given
    cases given
  | ok r =>
    rw [found] at given
    obtain rfl : (a.slots.extract r.1 r.2).toList = hs := Except.ok.inj given
    rw [Array.toList_extract] at among
    exact List.mem_of_mem_drop (List.mem_of_mem_take among)

/-- The parts of a term are in its stretch of the slot storage. -/
theorem exists_slotsAt_of_mem_parts (seen : a.view h = .ok v) (part : k ∈ v.parts) :
    ∃ kind s hs, h = .node kind s ∧ a.slotsAt s = .ok hs ∧ k ∈ hs := by
  have text {text : Except TermError String} {f : String → Leaf}
      (shown : (text.map fun s => View.leaf (f s)) = .ok v) : False := by
    cases text with
    | error cause => cases shown
    | ok s =>
      obtain rfl := Except.ok.inj shown
      exact List.not_mem_nil part
  cases h with
  | int value | real value =>
    obtain rfl := Except.ok.inj seen
    exact absurd part List.not_mem_nil
  | short kind s =>
    rw [view] at seen
    split at seen <;> obtain rfl := Except.ok.inj seen <;> exact absurd part List.not_mem_nil
  | bigint digits => exact (text seen).elim
  | long kind s => exact (text seen).elim
  | node kind slots =>
    unfold view at seen
    dsimp only at seen
    cases given : a.slotsAt slots with
    | error fault =>
      rw [given] at seen
      cases seen
    | ok hs =>
      -- a compound has its functor in the first slot
      have held : v.parts = hs := by
        rw [given] at seen
        cases kind <;> cases hs <;> first | cases seen; done | cases seen; rfl
      exact ⟨kind, slots, hs, rfl, given, held ▸ part⟩

/-- The handles of the parts of a term are in slots. -/
theorem mem_slots_of_mem_parts (seen : a.view h = .ok v) (part : k ∈ v.parts) :
    k ∈ a.slots.toList := by
  obtain ⟨kind, s, hs, -, given, among⟩ := exists_slotsAt_of_mem_parts seen part
  exact mem_slots_of_slotsAt given among

/-- Below a term that is whole within a depth, and within none that is less, there are terms of which
this is true of every depth that is less, and they are in slots. -/
theorem exists_mem_slots_of_wholeWithin (whole : a.WholeWithin (depth + 1) h)
    (least : ¬a.WholeWithin depth h) : ∀ less < depth,
      ∃ k ∈ a.slots.toList, a.WholeWithin (less + 1) k ∧ ¬a.WholeWithin less k := by
  induction depth generalizing h with
  | zero =>
    intro less lower
    omega
  | succ depth ih =>
    intro less lower
    obtain ⟨v, seen, parts⟩ := wholeWithin_succ_iff.mp whole
    -- some part goes down all the way
    obtain ⟨k, part, deepest⟩ : ∃ k ∈ v.parts, ¬a.WholeWithin depth k := by
      by_contra none
      push Not at none
      exact least (wholeWithin_succ_iff.mpr ⟨v, seen, none⟩)
    by_cases here : less = depth
    · subst here
      exact ⟨k, mem_slots_of_mem_parts seen part, parts k part, deepest⟩
    · exact ih (parts k part) deepest less (by omega)

/-- The least depth within which a term is whole exceeds the number of slots by one at most. -/
theorem le_size_of_wholeWithin (whole : a.WholeWithin (depth + 1) h)
    (least : ¬a.WholeWithin depth h) : depth ≤ a.slots.size := by
  choose held among wholes leasts using exists_mem_slots_of_wholeWithin whole least
  have apart {i j : Fin depth} (lower : i < j) : held i i.isLt ≠ held j j.isLt := by
    intro same
    exact leasts j j.isLt (same ▸ (wholes i i.isLt).mono lower)
  have distinct : (List.ofFn fun i : Fin depth => held i i.isLt).Nodup := by
    rw [List.nodup_ofFn]
    intro i j same
    rcases lt_trichotomy i j with lower | equal | higher
    · exact absurd same (apart lower)
    · exact equal
    · exact absurd same.symm (apart higher)
  have inside : (List.ofFn fun i : Fin depth => held i i.isLt) ⊆ a.slots.toList := by
    intro k level
    obtain ⟨i, rfl⟩ := List.mem_ofFn.mp level
    exact among i i.isLt
  have short := (distinct.subperm inside).length_le
  rwa [List.length_ofFn, Array.length_toList] at short

/-- A term is live if and only if nothing in its tree is broken. -/
theorem live_iff : a.Live h ↔ (a.tree h).Over fun _ => True := by
  classical
  constructor
  · intro live
    have bounded := live_iff_exists_wholeWithin.mp live
    have whole := Nat.find_spec bounded
    refine WholeWithin.mono whole ?_
    cases least : Nat.find bounded with
    | zero => exact Nat.zero_le _
    | succ depth =>
      rw [least] at whole
      have above := le_size_of_wholeWithin whole (Nat.find_min bounded (by omega))
      rw [maxDepth]
      omega
  · intro whole
    exact live_iff_exists_wholeWithin.mpr ⟨a.maxDepth, whole⟩

end Arena
end PrologWire

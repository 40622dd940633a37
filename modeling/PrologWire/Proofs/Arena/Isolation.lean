import PrologWire.Proofs.Arena.Made
import PrologWire.Proofs.Arena.Scopes

/-!
# Arenas side by side

A handle is a plain value and can be given to any arena, which knows its own handles by the names of its
epochs alone. Names are drawn anew when an arena is created and when an epoch begins, but default arenas
share the name of their bottom epoch, and a clone has the names that its origin has at the time. So a handle
of one arena is invalid in another for good if the epoch that it was made in is not live there, and
otherwise will resolve there once enough has been stored.
-/

namespace PrologWire

/-! ## Epochs in the course of time -/

namespace Course

variable {a b : Arena} {events : List Event}

/-- An epoch that is live is one of before, or its name was given since. -/
theorem mem_epochs (h : Course a events b) {e : Epoch} (live : e ∈ b.epochs) :
    e ∈ a.epochs ∨ e.id ∈ Event.begun events := by
  induction h with
  | stay a => exact .inl live
  | grow grows _ ih =>
    have before := ih live
    rwa [grows.epochs] at before
  | @begin a b _ fresh _ begins _ ih =>
    obtain ⟨epochs, -, -⟩ := Arena.beginEpoch_eq_ok begins
    rcases ih live with before | since
    · rw [epochs, List.mem_append] at before
      rcases before with before | new
      · exact .inl before
      · rw [List.mem_singleton.mp new]
        exact .inr List.mem_cons_self
    · exact .inr (List.mem_cons_of_mem fresh since)
  | erase erases _ ih =>
    rw [Event.begun_append, Event.begun_erasure, List.nil_append]
    rcases ih live with before | since
    · left
      obtain ⟨kept, first, gone, split, -, -, epochs, -⟩ := Arena.truncate_eq_ok erases
      rw [epochs] at before
      rw [split]
      split at before
      · rw [List.mem_singleton.mp before]
        exact List.mem_append_right _ List.mem_cons_self
      · exact List.mem_append_left _ before
    · exact .inr since

/-- Live epochs have names of their own as long as every name is given once. -/
theorem nodup_ids (h : Course a events b) (distinct : (a.ids ++ Event.begun events).Nodup) :
    b.ids.Nodup := by
  induction h with
  | stay a => exact (List.nodup_append.mp distinct).1
  | grow grows _ ih =>
    apply ih
    rwa [grows.ids_eq]
  | begin begins _ ih =>
    obtain ⟨epochs, -, -⟩ := Arena.beginEpoch_eq_ok begins
    apply ih
    rw [Arena.ids, epochs, List.map_append, List.append_assoc]
    exact distinct
  | erase erases _ ih =>
    rw [Event.begun_append, Event.begun_erasure, List.nil_append] at distinct
    exact ih (distinct.sublist ((Arena.ids_of_truncate_eq_ok erases).1.append_right _))

end Course

/-! ## The epoch in which a term is made -/

/-- The handle that a part is given as, if it is given as a handle. -/
def Argument.handle? : Argument → Option Handle
  | .term h | .work _ h => some h
  | .name _ | .integer _ => none

/-- The handle that comes back as it was given: a compound without arguments is its functor. -/
def Operation.handedOn? : Operation → Option Handle
  | .funcOfItems [first] => first.handle?
  | _ => none

namespace Operation

open Arena

variable {a made : Arena} {op : Operation} {h : Handle} {e : EpochId}

/-- Also a compound, whose functor is made before its arguments, carries the epoch at the end. -/
theorem epoch?_func {name : String} {args : List Item}
    (carries : (a.func name args).1.epoch? = some e) : e = (a.func name args).2.current.id := by
  cases args with
  | nil =>
    have current := congrArg Epoch.id (a.grows_text .atom name).current_eq
    exact (epoch?_text carries).trans current.symm
  | cons arg rest => exact (Option.some.inj carries).symm

/-- So does a compound whose functor is given as a part, unless it is but the functor itself. -/
theorem epoch?_funcOfItems {items : List Argument}
    (makes : a.funcOfItems (Argument.items items) = (.ok h, made))
    (own : (Operation.funcOfItems items).handedOn? = none) (carries : h.epoch? = some e) :
    e = made.current.id := by
  cases items with
  | nil => cases makes
  | cons first args =>
    rw [Argument.items, Arena.funcOfItems] at makes
    dsimp only at makes
    split at makes
    · obtain ⟨same, rfl⟩ := Prod.mk.inj makes
      obtain rfl := Except.ok.inj same
      cases args with
      | nil =>
        cases first with
        | term h => cases own
        | name s =>
          have current := congrArg Epoch.id (a.grows_text .atom s).current_eq
          exact (epoch?_text carries).trans current.symm
        | integer value =>
          have current := congrArg Epoch.id (a.grows_integer value).current_eq
          exact (epoch?_integer carries).trans current.symm
        | work ops h => cases own
      | cons arg rest => exact (Option.some.inj carries).symm
    · cases makes

/-- A handle that an operation made carries the epoch that is current when it comes back. -/
theorem epoch?_of_made (makes : op.perform a = (.made h, made)) (own : op.handedOn? = none)
    (carries : h.epoch? = some e) : e = made.current.id := by
  cases makes_of_perform makes with
  | text kind s =>
    have current := congrArg Epoch.id (a.grows_text kind s).current_eq
    exact (epoch?_text carries).trans current.symm
  | integer value =>
    have current := congrArg Epoch.id (a.grows_integer value).current_eq
    exact (epoch?_integer carries).trans current.symm
  | func name args => exact epoch?_func carries
  | funcOfItems result => exact epoch?_funcOfItems result own carries
  | list items | tuple items =>
    cases items with
    | nil => cases carries
    | cons item rest => exact (Option.some.inj carries).symm

end Operation

/-! ## What is done to several arenas -/

/-- What clients do to arenas, which are numbered as they come. -/
inductive Deed where
  | create (id : ArenaId) (bottom : EpochId)
  | createDefault
  | clone (k : Nat)
  | perform (k : Nat) (op : Operation)

namespace Deed

/-- The arenas afterwards. -/
def after : Deed → List Arena → List Arena
  | create id bottom, w => w ++ [.create id bottom]
  | createDefault, w => w ++ [default]
  | clone k, w => w ++ w[k]?.toList
  | perform k op, w => w.modify k fun a => (op.perform a).2

/-- The names of epochs that are drawn. -/
def drawn : Deed → List Arena → List EpochId
  | create _ bottom, _ => [bottom]
  | createDefault, _ => []
  | clone _, _ => []
  | perform k op, w => w[k]?.toList.flatMap fun a => Event.begun (op.events a)

/-- The arenas after deeds in a row. -/
def afterAll : List Deed → List Arena → List Arena
  | [], w => w
  | d :: rest, w => afterAll rest (d.after w)

/-- The names of epochs that are drawn by deeds in a row. -/
def drawnAll : List Deed → List Arena → List EpochId
  | [], _ => []
  | d :: rest, w => d.drawn w ++ drawnAll rest (d.after w)

/-- No name is drawn twice, and none is the one that the bottom epochs of default arenas have. -/
def NoCollision (deeds : List Deed) : Prop := ((⟨0⟩ : EpochId) :: drawnAll deeds []).Nodup

instance (deeds : List Deed) : Decidable (NoCollision deeds) := inferInstanceAs (Decidable (List.Nodup _))

theorem afterAll_append (deeds later : List Deed) (w : List Arena) :
    afterAll (deeds ++ later) w = afterAll later (afterAll deeds w) := by
  induction deeds generalizing w with
  | nil => rfl
  | cons d rest ih => exact ih (d.after w)

theorem drawnAll_append (deeds later : List Deed) (w : List Arena) :
    drawnAll (deeds ++ later) w = drawnAll deeds w ++ drawnAll later (afterAll deeds w) := by
  induction deeds generalizing w with
  | nil => rfl
  | cons d rest ih => rw [List.cons_append, drawnAll, ih, drawnAll, afterAll, List.append_assoc]

/-! ## One arena among several -/

/-- A deed lets an arena take a course, with no other names than those that it draws. -/
theorem course (d : Deed) {w : List Arena} {j : Nat} {a : Arena} (here : w[j]? = some a) :
    ∃ b events, (d.after w)[j]? = some b ∧ Course a events b ∧
      (Event.begun events).Sublist (d.drawn w) := by
  have inside := (List.getElem?_eq_some_iff.mp here).1
  have stays (more : List Arena) : (w ++ more)[j]? = some a := by
    rw [List.getElem?_append_left inside, here]
  cases d with
  | create id bottom => exact ⟨a, [], stays _, .stay a, List.nil_sublist _⟩
  | createDefault => exact ⟨a, [], stays _, .stay a, List.nil_sublist _⟩
  | clone k => exact ⟨a, [], stays _, .stay a, List.nil_sublist _⟩
  | perform k op =>
    by_cases same : k = j
    · subst same
      refine ⟨_, op.events a, ?_, op.course a, ?_⟩
      · rw [after, List.getElem?_modify_eq, here]
        rfl
      · rw [drawn, here, Option.toList_some, List.flatMap_singleton]
    · refine ⟨a, [], ?_, .stay a, List.nil_sublist _⟩
      rw [after, List.getElem?_modify_ne _ _ same, here]

theorem course_all (deeds : List Deed) {w : List Arena} {j : Nat} {a : Arena}
    (here : w[j]? = some a) :
    ∃ b events, (afterAll deeds w)[j]? = some b ∧ Course a events b ∧
      (Event.begun events).Sublist (drawnAll deeds w) := by
  induction deeds generalizing w a with
  | nil => exact ⟨a, [], here, .stay a, List.nil_sublist _⟩
  | cons d rest ih =>
    obtain ⟨b, events, next, course, named⟩ := d.course here
    obtain ⟨c, later, last, onward, namedLater⟩ := ih next
    refine ⟨c, events ++ later, last, course.append onward, ?_⟩
    rw [Event.begun_append]
    exact named.append namedLater

/-- Operations on one arena. -/
theorem afterAll_perform {w : List Arena} {j : Nat} {a : Arena} (here : w[j]? = some a)
    (ops : List Operation) :
    (afterAll (ops.map (perform j)) w)[j]? = some (Operation.performAll ops a) ∧
      drawnAll (ops.map (perform j)) w = Event.begun (Operation.eventsAll ops a) := by
  induction ops generalizing w a with
  | nil => exact ⟨here, rfl⟩
  | cons op rest ih =>
    have next : ((perform j op).after w)[j]? = some (op.perform a).2 := by
      rw [after, List.getElem?_modify_eq, here]
      rfl
    obtain ⟨last, named⟩ := ih next
    refine ⟨last, ?_⟩
    rw [List.map_cons, drawnAll, named, drawn, here, Option.toList_some, List.flatMap_singleton,
      Operation.eventsAll, Event.begun_append]

/-- The last operation changes the arena that it is performed on. -/
theorem getElem?_afterAll_concat {deeds : List Deed} {w : List Arena} {i : Nat} {a : Arena}
    (here : (afterAll deeds w)[i]? = some a) (op : Operation) :
    (afterAll (deeds ++ [perform i op]) w)[i]? = some (op.perform a).2 := by
  rw [afterAll_append, afterAll, afterAll, after, List.getElem?_modify_eq, here]
  rfl

/-- It does not change the others. -/
theorem getElem?_afterAll_concat_of_ne {i j : Nat} (others : i ≠ j) (deeds : List Deed) (w : List Arena)
    (op : Operation) : (afterAll (deeds ++ [perform i op]) w)[j]? = (afterAll deeds w)[j]? := by
  rw [afterAll_append, afterAll, afterAll, after, List.getElem?_modify_ne _ _ others]

/-- An operation on one arena leaves the others what they are. -/
theorem after_perform_subset {w : List Arena} {k : Nat} {a : Arena} (found : w[k]? = some a)
    (op : Operation) : (perform k op).after w ⊆ (op.perform a).2 :: w := by
  intro y among
  obtain ⟨j, here⟩ := List.mem_iff_getElem?.mp among
  by_cases same : k = j
  · rw [after, ← same, List.getElem?_modify_eq, found] at here
    rw [← Option.some.inj here]
    exact List.mem_cons_self
  · rw [after, List.getElem?_modify_ne _ _ same] at here
    exact List.mem_cons_of_mem _ (List.mem_of_getElem? here)

end Deed

/-! ## Names that arenas have in common -/

/-- The names of live epochs are among those given so far, an arena has none twice, and what two arenas
have in common they have from one arena, whose bottom epoch both still have. -/
structure Kinship (arenas : List Arena) (names : List EpochId) : Prop where
  named : ∀ a ∈ arenas, a.ids ⊆ names
  distinct : ∀ a ∈ arenas, a.ids.Nodup
  related : ∀ a ∈ arenas, ∀ b ∈ arenas, ∀ e ∈ a.ids, e ∈ b.ids → a.bottom.id = b.bottom.id

namespace Kinship

variable {arenas fewer : List Arena} {names new : List EpochId}

theorem subset (h : Kinship arenas names) (among : fewer ⊆ arenas) : Kinship fewer names :=
  ⟨fun a here => h.named a (among here), fun a here => h.distinct a (among here),
    fun a here b there => h.related a (among here) b (among there)⟩

/-- One more arena, whose names are new or come from an arena with the same bottom epoch. -/
theorem extend (h : Kinship arenas names) (apart : ∀ e ∈ new, e ∉ names) {x : Arena}
    (distinct : x.ids.Nodup) (origin : ∀ e ∈ x.ids,
      e ∈ new ∨ ∃ a ∈ arenas, e ∈ a.ids ∧ a.bottom.id = x.bottom.id) :
    Kinship (x :: arenas) (names ++ new) := by
  -- what the new arena shares with another one it has from its origin, which shares it too
  have shared (b : Arena) (among : b ∈ arenas) (e : EpochId) (here : e ∈ x.ids) (there : e ∈ b.ids) :
      x.bottom.id = b.bottom.id := by
    rcases origin e here with fresh | ⟨a, old, before, same⟩
    · exact absurd (h.named b among there) (apart e fresh)
    · rw [← same]
      exact h.related a old b among e before there
  refine ⟨?_, List.forall_mem_cons.mpr ⟨distinct, h.distinct⟩, ?_⟩
  · intro b among e here
    rcases List.mem_cons.mp among with rfl | old
    · rcases origin e here with fresh | ⟨a, old, before, -⟩
      · exact List.mem_append_right _ fresh
      · exact List.mem_append_left _ (h.named a old before)
    · exact List.mem_append_left _ (h.named b old here)
  · intro b among c among' e here there
    rcases List.mem_cons.mp among with rfl | old
    · rcases List.mem_cons.mp among' with rfl | old'
      · rfl
      · exact shared c old' e here there
    · rcases List.mem_cons.mp among' with rfl | old'
      · exact (shared b old e there here).symm
      · exact h.related b old c old' e here there

/-- A default arena stands for those that are to come. -/
theorem start : Kinship [default] [⟨0⟩] := by
  refine ⟨?_, ?_, ?_⟩
  · intro a here
    rw [List.mem_singleton.mp here]
    exact fun e live => live
  · intro a here
    rw [List.mem_singleton.mp here]
    exact List.pairwise_singleton _ _
  · intro a here b there _ _ _
    rw [List.mem_singleton.mp here, List.mem_singleton.mp there]

/-- One arena more, or one in another's place. -/
theorem join {w later : List Arena} (h : Kinship (default :: w) names) (apart : ∀ e ∈ new, e ∉ names)
    (x : Arena) (among : later ⊆ x :: w) (distinct : x.ids.Nodup) (origin : ∀ e ∈ x.ids,
      e ∈ new ∨ ∃ a ∈ default :: w, e ∈ a.ids ∧ a.bottom.id = x.bottom.id) :
    Kinship (default :: later) (names ++ new) := by
  apply (h.extend apart distinct origin).subset
  intro y here
  rcases List.mem_cons.mp here with rfl | here
  · exact List.mem_cons_of_mem _ List.mem_cons_self
  · rcases List.mem_cons.mp (among here) with rfl | old
    · exact List.mem_cons_self
    · exact List.mem_cons_of_mem _ (List.mem_cons_of_mem _ old)

/-- The same arena once more. -/
theorem repeated {w later : List Arena} (h : Kinship (default :: w) names) (apart : ∀ e ∈ new, e ∉ names)
    {x : Arena} (old : x ∈ default :: w) (among : later ⊆ x :: w) :
    Kinship (default :: later) (names ++ new) :=
  h.join apart x among (h.distinct x old) fun _ live => .inr ⟨x, old, live, rfl⟩

/-- An operation on one of the arenas. -/
theorem perform {w : List Arena} {k : Nat} {a : Arena} (h : Kinship (default :: w) names)
    (found : w[k]? = some a) (op : Operation)
    (distinct : (names ++ Event.begun (op.events a)).Nodup) :
    Kinship (default :: (Deed.perform k op).after w) (names ++ Event.begun (op.events a)) := by
  obtain ⟨-, fresh, apart⟩ := List.nodup_append.mp distinct
  have old : a ∈ default :: w := List.mem_cons_of_mem _ (List.mem_of_getElem? found)
  have course := op.course a
  apply h.join (fun e new live => apart e live e new rfl) (op.perform a).2 (Deed.after_perform_subset found op)
  · apply course.nodup_ids
    refine List.nodup_append.mpr ⟨h.distinct a old, fresh, ?_⟩
    intro e live e' new
    exact apart e (h.named a old live) e' new
  · intro e live
    rcases course.mem_ids live with before | since
    · exact .inr ⟨a, old, before, congrArg Epoch.id course.bottom_eq.symm⟩
    · exact .inl since

/-- A deed that draws new names keeps arenas akin. -/
theorem after {w : List Arena} (h : Kinship (default :: w) names) (d : Deed)
    (distinct : (names ++ d.drawn w).Nodup) :
    Kinship (default :: d.after w) (names ++ d.drawn w) := by
  have apart : ∀ e ∈ d.drawn w, e ∉ names := fun e new old =>
    (List.nodup_append.mp distinct).2.2 e old e new rfl
  have behind (x : Arena) : w ++ [x] ⊆ x :: w :=
    List.append_subset.mpr ⟨List.subset_cons_self _ _, List.cons_subset.mpr ⟨List.mem_cons_self, List.nil_subset _⟩⟩
  -- what a clone shares with others it shares with its origin, and the default arena is always there
  cases d with
  | create id bottom =>
    exact h.join apart (.create id bottom) (behind _) (List.pairwise_singleton _ _) fun e live => .inl live
  | createDefault => exact h.repeated apart List.mem_cons_self (behind _)
  | clone k =>
    cases found : w[k]? with
    | none =>
      apply h.repeated apart List.mem_cons_self
      rw [Deed.after, found, Option.toList_none, List.append_nil]
      exact List.subset_cons_self _ _
    | some a =>
      apply h.repeated apart (List.mem_cons_of_mem _ (List.mem_of_getElem? found))
      rw [Deed.after, found]
      exact behind a
  | perform k op =>
    cases found : w[k]? with
    | none =>
      apply h.repeated apart List.mem_cons_self
      rw [Deed.after, List.modify_eq_self (List.getElem?_eq_none_iff.mp found)]
      exact List.subset_cons_self _ _
    | some a =>
      have drawn : (Deed.perform k op).drawn w = Event.begun (op.events a) := by
        rw [Deed.drawn, found, Option.toList_some, List.flatMap_singleton]
      rw [drawn] at distinct ⊢
      exact h.perform found op distinct

theorem afterAll {w : List Arena} (h : Kinship (default :: w) names) (deeds : List Deed)
    (distinct : (names ++ Deed.drawnAll deeds w).Nodup) :
    Kinship (default :: Deed.afterAll deeds w) (names ++ Deed.drawnAll deeds w) := by
  induction deeds generalizing w names with
  | nil =>
    rw [Deed.drawnAll, List.append_nil]
    exact h
  | cons d rest ih =>
    rw [Deed.drawnAll, ← List.append_assoc] at distinct ⊢
    exact ih (h.after d (List.nodup_append.mp distinct).1) distinct

end Kinship

/-! ## What resolves -/

namespace Handle

/-- The stretch of storage that a handle names begins before an epoch does. -/
def StartsBefore (e : Epoch) : Handle → Prop
  | .bigint s | .long _ s => s.start.toNat < e.byteStart
  | .node _ s => s.start.toNat < e.slotStart
  | .int _ | .real _ | .short _ _ => False

/-- Where the stretch of storage that a handle names ends. -/
def stop : Handle → Nat
  | .bigint s | .long _ s | .node _ s => s.start.toNat + s.length.toNat
  | .int _ | .real _ | .short _ _ => 0

end Handle

namespace Arena

variable {a : Arena} {start : Epoch → Nat} {size : Nat} {s : Slice} {h : Handle} {e : EpochId}

/-- A share begins where a live epoch of its name does. -/
theorem exists_epoch_of_shareOf? {epochs : List Epoch} {first last : Nat}
    (share : shareOf? start size e epochs = some (first, last)) :
    ∃ x ∈ epochs, x.id = e ∧ start x = first := by
  induction epochs with
  | nil => cases share
  | cons x above ih =>
    rw [shareOf?] at share
    split at share
    · next here =>
      exact ⟨x, List.mem_cons_self, here, (Prod.mk.inj (Option.some.inj share)).1⟩
    · obtain ⟨y, among, rest⟩ := ih share
      exact ⟨y, List.mem_cons_of_mem _ among, rest⟩

/-- A stretch that begins before every live epoch of its name is stale. -/
theorem locate_eq_stale (before : ∀ x ∈ a.epochs, x.id = s.epoch → s.start.toNat < start x) :
    a.locate start size s = .error .stale := by
  unfold locate
  cases share : shareOf? start size s.epoch a.epochs with
  | none => rfl
  | some r =>
    obtain ⟨x, among, here, first⟩ := exists_epoch_of_shareOf? share
    have outside : s.start.toNat < r.1 := first ▸ before x among here
    exact if_pos (.inl outside)

/-- A stretch of the current epoch that begins in it and ends within the storage is not stale. -/
theorem locate_ne_stale (distinct : a.ids.Nodup) (here : s.epoch = a.current.id)
    (low : start a.current ≤ s.start.toNat) (high : s.start.toNat + s.length.toNat ≤ size) :
    a.locate start size s ≠ .error .stale := by
  rw [locate, here, shareOf?_current distinct]
  dsimp only
  rw [if_neg (by omega)]
  split <;> simp

/-- A handle is stale if it begins before every live epoch of the name that it carries. -/
theorem isStale_of_startsBefore (carries : h.epoch? = some e)
    (before : ∀ x ∈ a.epochs, x.id = e → h.StartsBefore x) : a.IsStale h := by
  cases h with
  | bigint s | long kind s | node kind s =>
    obtain rfl := Option.some.inj carries
    exact locate_eq_stale before
  | _ => cases carries

/-- A handle that begins in the current epoch and ends within the storages is not stale. -/
theorem not_isStale_of_current (distinct : a.ids.Nodup) (carries : h.epoch? = some a.current.id)
    (begun : ¬h.StartsBefore a.current) (bytes : h.stop ≤ a.bytes.size)
    (slots : h.stop ≤ a.slots.size) : ¬a.IsStale h := by
  cases h with
  | bigint s | long kind s =>
    exact locate_ne_stale distinct (Option.some.inj carries) (Nat.le_of_not_lt begun) bytes
  | node kind s =>
    exact locate_ne_stale distinct (Option.some.inj carries) (Nat.le_of_not_lt begun) slots
  | _ => cases carries

end Arena

/-! ## Room for a handle -/

theorem Argument.pushItems_replicate (n : Nat) (a : Arena) :
    (a.pushItems (Argument.items (List.replicate n (.term .nil)))).slots.size = a.slots.size + n ∧
      Argument.eventsAll (List.replicate n (.term .nil)) a = [] := by
  induction n generalizing a with
  | zero => exact ⟨rfl, rfl⟩
  | succ n ih =>
    obtain ⟨size, quiet⟩ := ih (a.pushSlot .nil)
    rw [List.replicate_succ]
    refine ⟨?_, quiet⟩
    show ((a.pushSlot .nil).pushItems _).slots.size = _
    rw [size, Arena.pushSlot, Array.size_push]
    omega

namespace Operation

open Arena

theorem performAll_append (ops later : List Operation) (a : Arena) :
    performAll (ops ++ later) a = performAll later (performAll ops a) := by
  induction ops generalizing a with
  | nil => rfl
  | cons op rest ih => exact ih (op.perform a).2

theorem eventsAll_append (ops later : List Operation) (a : Arena) :
    eventsAll (ops ++ later) a = eventsAll ops a ++ eventsAll later (performAll ops a) := by
  induction ops generalizing a with
  | nil => rfl
  | cons op rest ih => rw [List.cons_append, eventsAll, ih, eventsAll, performAll, List.append_assoc]

/-- A live epoch becomes the current one when those above it are erased. -/
theorem exists_current {a : Arena} (distinct : a.ids.Nodup) {x : Epoch} (live : x ∈ a.epochs) :
    ∃ ops, Event.begun (eventsAll ops a) = [] ∧ (performAll ops a).current = x ∧
      (performAll ops a).ids.Nodup := by
  obtain ⟨below, above, split⟩ := List.append_of_mem live
  rcases above with _ | ⟨y, rest⟩
  · refine ⟨[], rfl, ?_, distinct⟩
    unfold current performAll
    simp only [split, List.getLast_concat]
  · rw [List.append_cons] at split
    have once := distinct
    rw [ids, split, List.map_append, List.map_cons] at once
    have first : ∀ e ∈ below ++ [x], e.id ≠ y.id := fun e among same =>
      (List.nodup_append.mp once).2.2 _ (List.mem_map_of_mem among) _ List.mem_cons_self same
    obtain ⟨b, erases, epochs, -⟩ := exists_truncate_eq_ok split first
    have after : performAll [.truncate y.id] a = b := by
      rw [performAll, perform, erases]
      rfl
    refine ⟨[.truncate y.id], ?_, ?_, ?_⟩
    · rw [eventsAll, eventsAll, List.append_nil, events, Event.begun_erasure]
    · rw [after]
      rw [if_neg (List.append_ne_nil_of_right_ne_nil below (List.cons_ne_nil x []))] at epochs
      unfold current
      simp only [epochs, List.getLast_concat]
    · rw [after]
      exact distinct.sublist (ids_of_truncate_eq_ok erases).1

/-- A text that does not fit into its handle goes to the storage. -/
theorem size_bytes_text (a : Arena) (kind : TextKind) (s : String) (long : 14 < s.utf8ByteSize) :
    (a.text kind s).2.bytes.size = a.bytes.size + s.utf8ByteSize := by
  rw [Arena.text, dif_neg (Nat.not_le_of_lt long)]
  exact ByteArray.size_append

theorem exists_utf8ByteSize_eq (n : Nat) : ∃ s : String, s.utf8ByteSize = n := by
  induction n with
  | zero => exact ⟨"", rfl⟩
  | succ n ih =>
    obtain ⟨s, size⟩ := ih
    exact ⟨s.push 'x', by rw [String.utf8ByteSize_push, size]; rfl⟩

/-- There can always be more in the storages. -/
theorem exists_size (a : Arena) (n : Nat) :
    ∃ ops, Event.begun (eventsAll ops a) = [] ∧ a.Grows (performAll ops a) ∧
      n ≤ (performAll ops a).bytes.size ∧ n ≤ (performAll ops a).slots.size := by
  obtain ⟨s, long⟩ := exists_utf8ByteSize_eq (n + 15)
  have texts := a.grows_text .str s
  have filled := size_bytes_text a .str s (by omega)
  obtain ⟨size, quiet⟩ := Argument.pushItems_replicate (n + 1) (a.text .str s).2
  have elems : (a.text .str s).2.Grows ((a.text .str s).2.pushItems
      (Argument.items (List.replicate (n + 1) (.term .nil)))) := by
    apply Argument.grows_pushItems
    intro arg among
    rw [List.eq_of_mem_replicate among]
    rfl
  have after : performAll [.text .str s, .list (List.replicate (n + 1) (.term .nil))] a =
      (a.text .str s).2.pushItems (Argument.items (List.replicate (n + 1) (.term .nil))) := rfl
  refine ⟨[.text .str s, .list (List.replicate (n + 1) (.term .nil))], ?_, ?_, ?_, ?_⟩
  · rw [eventsAll, eventsAll, eventsAll, events, events, List.nil_append, List.append_nil]
    exact congrArg Event.begun quiet
  · rw [after]
    exact texts.trans elems
  · rw [after]
    have more := elems.size_bytes_le
    omega
  · rw [after, size]
    omega

end Operation

/-! ## Isolation -/

/-- A handle that is handed on is what the operation comes back with. -/
theorem Operation.eq_of_handedOn? {op : Operation} {a made : Arena} {h g : Handle}
    (makes : op.perform a = (.made h, made)) (handed : op.handedOn? = some g) : h = g := by
  cases makes_of_perform makes with
  | @funcOfItems items _ _ result =>
    obtain _ | ⟨first, _ | ⟨arg, rest⟩⟩ := items
    · cases handed
    · rw [Argument.items, Arena.funcOfItems] at result
      dsimp only at result
      split at result
      · rw [← Except.ok.inj (Prod.mk.inj result).1]
        cases first with
        | term k | work ops k => exact Option.some.inj handed
        | name s | integer value => cases handed
      · cases result
    · cases handed
  | _ => cases handed

namespace Deed

open Arena

variable {deeds : List Deed} {i j : Nat} {a b made : Arena} {op : Operation} {h : Handle} {e : EpochId}

/-- Whatever is done from now on, a look at the handle in the arena of that number is invalid. -/
def NeverResolves (deeds : List Deed) (j : Nat) (h : Handle) : Prop :=
  ∀ later b, NoCollision (deeds ++ later) → (afterAll (deeds ++ later) [])[j]? = some b →
    b.view h = .error (.invalidTerm h)

theorem NoCollision.kinship (distinct : NoCollision deeds) :
    Kinship (default :: afterAll deeds []) (⟨0⟩ :: drawnAll deeds []) :=
  Kinship.start.afterAll deeds distinct

/-- A handle that begins before the epoch of its name, or whose epoch is not live, stays invalid. -/
theorem neverResolves_of_startsBefore (here : (afterAll deeds [])[j]? = some b)
    (carries : h.epoch? = some e) (named : e ∈ (⟨0⟩ : EpochId) :: drawnAll deeds [])
    (before : ∀ x ∈ b.epochs, x.id = e → h.StartsBefore x) : NeverResolves deeds j h := by
  intro later c distinct there
  obtain ⟨c', events, now, course, fresh⟩ := course_all later here
  rw [afterAll_append, now] at there
  obtain rfl := Option.some.inj there
  rw [NoCollision, drawnAll_append, ← List.cons_append] at distinct
  rw [view_eq_invalidTerm_iff]
  apply isStale_of_startsBefore carries
  -- the name is not given to another epoch
  intro x live called
  rcases course.mem_epochs live with old | new
  · exact before x old called
  · rw [called] at new
    exact absurd rfl ((List.nodup_append.mp distinct).2.2 e named e (fresh.subset new))

/-- A handle that begins in a live epoch of its name resolves once there is enough in the storages. -/
theorem not_neverResolves (distinct : NoCollision deeds) (here : (afterAll deeds [])[j]? = some b)
    {x : Epoch} (live : x ∈ b.epochs) (carries : h.epoch? = some x.id) (inside : ¬h.StartsBefore x) :
    ¬NeverResolves deeds j h := by
  intro never
  have among : b ∈ default :: afterAll deeds [] := List.mem_cons_of_mem _ (List.mem_of_getElem? here)
  have own := distinct.kinship.distinct b among
  -- the epochs above go, and then the storages are filled until the handle is within them
  obtain ⟨lower, quiet, current, own⟩ := Operation.exists_current own live
  obtain ⟨fill, still, grows, bytes, slots⟩ :=
    Operation.exists_size (Operation.performAll lower b) h.stop
  obtain ⟨there, none⟩ := afterAll_perform here (lower ++ fill)
  rw [Operation.eventsAll_append, Event.begun_append, quiet, still, List.nil_append] at none
  rw [Operation.performAll_append] at there
  have invalid := never ((lower ++ fill).map (perform j)) _
    (by rw [NoCollision, drawnAll_append, none, List.append_nil]; exact distinct)
    (by rw [afterAll_append]; exact there)
  have now : (Operation.performAll fill (Operation.performAll lower b)).current = x :=
    grows.current_eq.trans current
  refine not_isStale_of_current ?_ ?_ ?_ bytes slots ((view_eq_invalidTerm_iff _ h).mp invalid)
  · rwa [grows.ids_eq]
  · rw [now]
    exact carries
  · rwa [now]

/-- A handle that a constructor has made in one arena, or handed on, is invalid for good in another one
if and only if the epoch that it carries is not live there, or begins behind the handle. Unless both have
the same bottom epoch, no epoch in which a handle is made is live in the other. -/
theorem neverResolves_iff (distinct : NoCollision (deeds ++ [.perform i op]))
    (first : (afterAll deeds [])[i]? = some a) (second : (afterAll deeds [])[j]? = some b)
    (others : i ≠ j) (makes : op.perform a = (.made h, made)) (carries : h.epoch? = some e)
    (known : op.handedOn? = some h → e ∈ (⟨0⟩ : EpochId) :: drawnAll (deeds ++ [.perform i op]) []) :
    (NeverResolves (deeds ++ [.perform i op]) j h ↔ ∀ x ∈ b.epochs, x.id = e → h.StartsBefore x) ∧
      (op.handedOn? = none → a.bottom.id ≠ b.bottom.id → e ∉ b.ids) := by
  have kin := distinct.kinship
  have firstAfter : (afterAll (deeds ++ [.perform i op]) [])[i]? = some made := by
    rw [getElem?_afterAll_concat first, makes]
  have secondAfter : (afterAll (deeds ++ [.perform i op]) [])[j]? = some b := by
    rw [getElem?_afterAll_concat_of_ne others, second]
  have firstAmong : made ∈ default :: afterAll (deeds ++ [.perform i op]) [] :=
    List.mem_cons_of_mem _ (List.mem_of_getElem? firstAfter)
  have secondAmong : b ∈ default :: afterAll (deeds ++ [.perform i op]) [] :=
    List.mem_cons_of_mem _ (List.mem_of_getElem? secondAfter)
  have live (own : op.handedOn? = none) : e ∈ made.ids := by
    rw [Operation.epoch?_of_made makes own carries]
    exact List.mem_map_of_mem (List.getLast_mem made.epochs_ne_nil)
  -- a name that was given before is not drawn again, so what is not live now will not be
  have named : e ∈ (⟨0⟩ : EpochId) :: drawnAll (deeds ++ [.perform i op]) [] := by
    cases handed : op.handedOn? with
    | none => exact kin.named made firstAmong (live handed)
    | some g =>
      apply known
      rw [handed, Operation.eq_of_handedOn? makes handed]
  refine ⟨⟨?_, neverResolves_of_startsBefore secondAfter carries named⟩, ?_⟩
  · rintro never x among rfl
    exact Classical.byContradiction fun inside =>
      not_neverResolves distinct secondAfter among carries inside never
  · intro own apart there
    apply apart
    have course := op.course a
    rw [makes] at course
    rw [← course.bottom_eq]
    exact kin.related made firstAmong b secondAmong e (live own) there

/-- Two arenas, each created on its own, and an epoch that the second begins. -/
def twoArenas : List Deed := [.create ⟨1⟩ ⟨1⟩, .create ⟨2⟩ ⟨2⟩, .perform 1 (.beginEpoch ⟨3⟩)]

/-- A compound with a name that does not fit into its handle. -/
def namedCompound : Operation := .func "a name in the first arena" [.integer 1, .name "elem"]

theorem neverResolves_namedCompound :
    ∃ h made, namedCompound.perform (Arena.create ⟨1⟩ ⟨1⟩) = (.made h, made) ∧
      NeverResolves (twoArenas ++ [.perform 0 namedCompound]) 1 h := by
  refine ⟨_, _, rfl, ?_⟩
  obtain ⟨never, apart⟩ := @neverResolves_iff twoArenas 0 1 _ _ _ namedCompound _ ⟨1⟩
    (by decide +kernel) rfl rfl (by decide) rfl rfl (fun handed => by cases handed)
  apply never.mpr
  rintro x among called
  refine absurd ?_ (apart rfl (by decide))
  rw [← called]
  exact List.mem_map_of_mem among

/-- A name that does not fit into its handle, and a text that takes the same stretch of storage. -/
def longName : Operation := .text .atom "a name in the first arena"

def otherText : Operation := .text .atom "other bytes in the second one"

/-- After these deeds the name of the first arena shows what is in its place in the second one. -/
def ShowsOther (deeds : List Deed) : Prop :=
  ∃ a h made b, (afterAll deeds [])[0]? = some a ∧ longName.perform a = (.made h, made) ∧
    NoCollision (deeds ++ [.perform 0 longName, .perform 1 otherText]) ∧
    (afterAll (deeds ++ [.perform 0 longName, .perform 1 otherText]) [])[1]? = some b ∧
    b.view h = .ok (.leaf (.atom "other bytes in the second"))

/-- A name of a default arena resolves in another one, and so does that of an arena in its clone. -/
theorem view_elsewhere :
    ShowsOther [.createDefault, .createDefault] ∧ ShowsOther [.create ⟨1⟩ ⟨1⟩, .clone 0] := by
  constructor
  · refine ⟨_, _, _, _, rfl, rfl, ?_, rfl, ?_⟩
    · decide +kernel
    · decide +kernel
  · refine ⟨_, _, _, _, rfl, rfl, ?_, rfl, ?_⟩
    · decide +kernel
    · decide +kernel

end Deed

end PrologWire

import Mathlib.Data.List.Basic
import PrologWire.Proofs.Sentence.Outline

/-!
# Sentences that differ in the names of their variables

Two sentences that are the same but for the names of their variables are two views of one sentence whose
variables are pairs of names. The numbers that the two names of each pair get in their sentences are the same for
all pairs if and only if the pairs are one to one: equal names on one side are equal on the other.
-/

namespace PrologWire

variable {α β ν μ : Type}

/-! ## Pairs of names -/

/-- What is equal on the one side is equal on the other. -/
def OneToOne (pairs : List (α × β)) : Prop :=
  ∀ p ∈ pairs, ∀ q ∈ pairs, p.1 = q.1 ↔ p.2 = q.2

instance [DecidableEq α] [DecidableEq β] (pairs : List (α × β)) : Decidable (OneToOne pairs) :=
  inferInstanceAs (Decidable (∀ p ∈ pairs, ∀ q ∈ pairs, p.1 = q.1 ↔ p.2 = q.2))

section

variable [BEq α] [LawfulBEq α] [BEq β] [LawfulBEq β] {f : α → β}

/-- A function that keeps members apart keeps their first occurrences. -/
theorem eraseDups_map_of_injOn {xs : List α} (inj : ∀ x ∈ xs, ∀ y ∈ xs, f x = f y → x = y) :
    (xs.map f).eraseDups = xs.eraseDups.map f := by
  match xs, inj with
  | [], _ => rfl
  | x :: rest, inj =>
    have others : (rest.map f).filter (fun b => !b == f x) = (rest.filter fun b => !b == x).map f := by
      rw [List.filter_map]
      refine congrArg (List.map f) (List.filter_congr fun y among => ?_)
      have same : f y = f x ↔ y = x :=
        ⟨inj y (List.mem_cons_of_mem _ among) x List.mem_cons_self, congrArg f⟩
      rw [Function.comp_apply, Bool.eq_iff_iff]
      simp [same]
    rw [List.map_cons, List.eraseDups_cons, List.eraseDups_cons, others, List.map_cons,
      eraseDups_map_of_injOn fun y among z among' =>
        inj y (List.mem_cons_of_mem _ (List.mem_filter.mp among).1)
          z (List.mem_cons_of_mem _ (List.mem_filter.mp among').1)]
termination_by xs.length
decreasing_by exact Nat.lt_succ_of_le (List.length_filter_le _ _)

theorem idxOf_map_of_injOn {xs : List α} {x : α} (inj : ∀ y ∈ xs, f y = f x → y = x) :
    (xs.map f).idxOf (f x) = xs.idxOf x := by
  induction xs with
  | nil => rfl
  | cons y rest ih =>
    have same : (f y == f x) = (y == x) := by
      rw [Bool.eq_iff_iff, beq_iff_eq, beq_iff_eq]
      exact ⟨inj y List.mem_cons_self, congrArg f⟩
    rw [List.map_cons, List.idxOf_cons, List.idxOf_cons, same,
      ih fun z among => inj z (List.mem_cons_of_mem _ among)]

end

namespace OneToOne

variable {pairs : List (α × β)}

theorem eq_of_fst_eq (h : OneToOne pairs) {p q : α × β} (hp : p ∈ pairs) (hq : q ∈ pairs)
    (same : p.1 = q.1) : p = q := Prod.ext same ((h p hp q hq).mp same)

theorem eq_of_snd_eq (h : OneToOne pairs) {p q : α × β} (hp : p ∈ pairs) (hq : q ∈ pairs)
    (same : p.2 = q.2) : p = q := Prod.ext ((h p hp q hq).mpr same) same

variable [DecidableEq α] [DecidableEq β]

theorem eraseDups_fst (h : OneToOne pairs) :
    (pairs.map Prod.fst).eraseDups = pairs.eraseDups.map Prod.fst :=
  eraseDups_map_of_injOn fun _ hp _ hq => h.eq_of_fst_eq hp hq

theorem eraseDups_snd (h : OneToOne pairs) :
    (pairs.map Prod.snd).eraseDups = pairs.eraseDups.map Prod.snd :=
  eraseDups_map_of_injOn fun _ hp _ hq => h.eq_of_snd_eq hp hq

end OneToOne

/-- The two sides of every pair have the same number among the first occurrences of their sides exactly if
the pairs are one to one. -/
theorem oneToOne_iff_idxOf [DecidableEq α] [DecidableEq β] {pairs : List (α × β)} :
    OneToOne pairs ↔ ∀ p ∈ pairs,
      (pairs.map Prod.fst).eraseDups.idxOf p.1 = (pairs.map Prod.snd).eraseDups.idxOf p.2 := by
  constructor
  · intro h p among
    -- both are the number of the pair
    have left : (pairs.eraseDups.map Prod.fst).idxOf p.1 = pairs.eraseDups.idxOf p :=
      idxOf_map_of_injOn fun q hq => h.eq_of_fst_eq (List.mem_eraseDups.mp hq) among
    have right : (pairs.eraseDups.map Prod.snd).idxOf p.2 = pairs.eraseDups.idxOf p :=
      idxOf_map_of_injOn fun q hq => h.eq_of_snd_eq (List.mem_eraseDups.mp hq) among
    rw [h.eraseDups_fst, h.eraseDups_snd, left, right]
  · intro h p hp q hq
    have left : (pairs.map Prod.fst).eraseDups.idxOf p.1 = (pairs.map Prod.fst).eraseDups.idxOf q.1 ↔
        p.1 = q.1 :=
      List.idxOf_inj (List.mem_eraseDups.mpr (List.mem_map_of_mem hp))
    have right : (pairs.map Prod.snd).eraseDups.idxOf p.2 = (pairs.map Prod.snd).eraseDups.idxOf q.2 ↔
        p.2 = q.2 :=
      List.idxOf_inj (List.mem_eraseDups.mpr (List.mem_map_of_mem hp))
    rw [← left, ← right, h p hp, h q hq]

/-! ## Terms -/

namespace Term

mutual

theorem vars_map (f : ν → μ) : ∀ t : Term ν, (t.map f).vars = t.vars.map f
  | atom _ | integer _ | float _ | var _ => rfl
  | compound _ args => varsAll_mapAll f args
  | list elems => varsAll_mapAll f elems

theorem varsAll_mapAll (f : ν → μ) : ∀ ts : List (Term ν), varsAll (mapAll f ts) = (varsAll ts).map f
  | [] => rfl
  | t :: rest => by rw [mapAll, varsAll, varsAll, vars_map f t, varsAll_mapAll f rest, List.map_append]

end

/-- The variables of renamed terms are the renamed variables. -/
theorem flatMap_vars_map (f : ν → μ) (ts : List (Term ν)) :
    (ts.map (map f)).flatMap vars = (ts.flatMap vars).map f := by
  rw [← varsAll_eq_flatMap, ← mapAll_eq_map, varsAll_mapAll, varsAll_eq_flatMap]

mutual

theorem map_map (f : ν → μ) (g : μ → α) : ∀ t : Term ν, (t.map f).map g = t.map (g ∘ f)
  | atom _ | integer _ | float _ | var _ => rfl
  | compound functor args => congrArg (compound functor) (mapAll_mapAll f g args)
  | list elems => congrArg list (mapAll_mapAll f g elems)

theorem mapAll_mapAll (f : ν → μ) (g : μ → α) :
    ∀ ts : List (Term ν), mapAll g (mapAll f ts) = mapAll (g ∘ f) ts
  | [] => rfl
  | t :: rest => by rw [mapAll, mapAll, mapAll, map_map f g t, mapAll_mapAll f g rest]

end

mutual

/-- Two terms that are the same but for their variables are two views of one term. -/
theorem exists_zip {name : μ} (t : Term α) (u : Term β)
    (same : t.map (fun _ => name) = u.map fun _ => name) :
    ∃ p : Term (α × β), p.map Prod.fst = t ∧ p.map Prod.snd = u := by
  cases t with
  | var v =>
    cases u with
    | var w => exact ⟨var (v, w), rfl, rfl⟩
    | _ => cases same
  | compound functor args =>
    cases u with
    | compound functor' args' =>
      obtain ⟨rfl, parts⟩ := compound.inj same
      obtain ⟨ps, rfl, rfl⟩ := exists_zipAll args args' parts
      exact ⟨compound functor ps, rfl, rfl⟩
    | _ => cases same
  | list elems =>
    cases u with
    | list elems' =>
      obtain ⟨ps, rfl, rfl⟩ := exists_zipAll elems elems' (list.inj same)
      exact ⟨list ps, rfl, rfl⟩
    | _ => cases same
  | atom name =>
    cases u with
    | atom name' =>
      obtain rfl := atom.inj same
      exact ⟨atom name, rfl, rfl⟩
    | _ => cases same
  | integer value =>
    cases u with
    | integer value' =>
      obtain rfl := integer.inj same
      exact ⟨integer value, rfl, rfl⟩
    | _ => cases same
  | float value =>
    cases u with
    | float value' =>
      obtain rfl := float.inj same
      exact ⟨float value, rfl, rfl⟩
    | _ => cases same

theorem exists_zipAll {name : μ} (ts : List (Term α)) (us : List (Term β))
    (same : mapAll (fun _ => name) ts = mapAll (fun _ => name) us) :
    ∃ ps : List (Term (α × β)), mapAll Prod.fst ps = ts ∧ mapAll Prod.snd ps = us := by
  cases ts with
  | nil =>
    cases us with
    | nil => exact ⟨[], rfl, rfl⟩
    | cons u rest => cases same
  | cons t rest =>
    cases us with
    | nil => cases same
    | cons u rest' =>
      obtain ⟨first, others⟩ := List.cons.inj same
      obtain ⟨p, rfl, rfl⟩ := exists_zip t u first
      obtain ⟨ps, rfl, rfl⟩ := exists_zipAll rest rest' others
      exact ⟨p :: ps, rfl, rfl⟩

end

/-! ### Numbers -/

section

variable (f : α → String) (ts : List (Term α))

theorem names_map : names (ts.map (map f)) = ((ts.flatMap vars).map f).eraseDups := by
  rw [names, flatMap_vars_map]

/-- The number that a variable has in the sentence in which its name is this one. -/
def numberBy (x : α) : Nat := (names (ts.map (map f))).idxOf (f x)

theorem numbered_map : numbered (ts.map (map f)) = mapAll (numberBy f ts) ts := by
  have both := mapAll_mapAll f (names (ts.map (map f))).idxOf ts
  rw [mapAll_eq_map f, mapAll_eq_map] at both
  exact both

end

variable (ps : List (Term (String × String)))

/-- The numbers of the two names of every pair are the same exactly if the pairs are one to one. -/
theorem oneToOne_iff_numbers :
    OneToOne (ps.flatMap vars) ↔
      ∀ p ∈ ps.flatMap vars, numberBy Prod.fst ps p = numberBy Prod.snd ps p := by
  simp only [numberBy, names_map]
  exact oneToOne_iff_idxOf

/-- Sides of pairs that are one to one have equally many names. -/
theorem length_names_of_oneToOne (h : OneToOne (ps.flatMap vars)) :
    (names (ps.map (map Prod.fst))).length = (names (ps.map (map Prod.snd))).length := by
  rw [names_map, names_map, h.eraseDups_fst, h.eraseDups_snd, List.length_map, List.length_map]

end Term

/-! ## Bytes that tell numbers -/

/-- Bytes that were written with some numbers and with others begin the same bytes exactly if all these numbers
are the same, and what comes behind, too. -/
def Tells (u v : α → Nat) (vars : List α) (bs bs' : List UInt8) : Prop :=
  ∀ xs ys, bs ++ xs = bs' ++ ys ↔ (∀ p ∈ vars, u p = v p) ∧ xs = ys

namespace Tells

variable {u v : α → Nat} {vars vars' : List α} {bs bs' cs cs' : List UInt8}

/-- Without numbers the bytes are the same. -/
theorem constant (bs : List UInt8) : Tells u v [] bs bs := fun xs ys => by
  rw [List.append_cancel_left_eq]
  exact (and_iff_right fun p among => absurd among List.not_mem_nil).symm

theorem append (h : Tells u v vars bs bs') (h' : Tells u v vars' cs cs') :
    Tells u v (vars ++ vars') (bs ++ cs) (bs' ++ cs') := fun xs ys => by
  rw [List.append_assoc, List.append_assoc, h, h', List.forall_mem_append, and_assoc]

/-- The same bytes may come before. -/
theorem behind (front : List UInt8) (h : Tells u v vars bs bs') :
    Tells u v vars (front ++ bs) (front ++ bs') := (constant front).append h

/-- One number, by a reader that finds it. -/
theorem of_reads {read : List UInt8 → Option (β × List UInt8)} {bytes : Nat → List UInt8} {value : Nat → β}
    (reads : ∀ n rest, read (bytes n ++ rest) = some (value n, rest))
    (inj : ∀ {m n}, value m = value n → m = n) (p : α) :
    Tells u v [p] (bytes (u p)) (bytes (v p)) := fun xs ys => by
  rw [List.forall_mem_singleton]
  constructor
  · intro same
    have both := congrArg read same
    rw [reads, reads] at both
    obtain ⟨value, rest⟩ := Prod.mk.inj (Option.some.inj both)
    exact ⟨inj value, rest⟩
  · rintro ⟨number, rfl⟩
    rw [number]

/-- With nothing behind them the bytes are the same exactly if the numbers are. -/
theorem eq_iff (h : Tells u v vars bs bs') : bs = bs' ↔ ∀ p ∈ vars, u p = v p := by
  have whole := h [] []
  rw [List.append_nil, List.append_nil] at whole
  exact whole.trans (and_iff_left rfl)

end Tells

/-! ## Calls -/

/-- The same call with another name if it is that of a variable. -/
def Call.rename (f : String → String) : Call → Call
  | .var name => .var (f name)
  | c => c

/-- The name of a variable. -/
def Call.var? : Call → Option String
  | .var name => some name
  | _ => none

/-- The names of the variables in calls, one for each occurrence. -/
def varNames (calls : List Call) : List String := calls.filterMap Call.var?

/-- The calls are the same but for the names of their variables. -/
def SameButNames (calls calls' : List Call) : Prop :=
  calls.map (Call.rename fun _ => "") = calls'.map (Call.rename fun _ => "")

instance (calls calls' : List Call) : Decidable (SameButNames calls calls') :=
  inferInstanceAs (Decidable (_ = _))

namespace Outline

/-- A renamed call leads to the renamed outline. -/
theorem step_rename (f : String → String) (o : Outline String) (c : Call) :
    (o.map f).step (c.rename f) = (o.step c).map (map f) := by
  cases c with
  | closeTerm =>
    obtain ⟨whole, _ | ⟨⟨functor, parts⟩ | parts, outer⟩⟩ := o
    · rfl
    · show some (add (map f ⟨whole, outer⟩) (.compound functor (parts.map (Term.map f)))) = some (map f _)
      rw [map_add, Term.map_compound]
    · rfl
  | closeList =>
    obtain ⟨whole, _ | ⟨⟨functor, parts⟩ | parts, outer⟩⟩ := o
    · rfl
    · rfl
    · show some (add (map f ⟨whole, outer⟩) (.list (parts.map (Term.map f)))) = some (map f _)
      rw [map_add, Term.map_list]
  | emptyList => exact congrArg some (map_add f o (.list [])).symm
  | atom name => exact congrArg some (map_add f o (.atom name)).symm
  | int value => exact congrArg some (map_add f o (.integer value.toInt)).symm
  | bigint value => exact congrArg some (map_add f o (.integer value)).symm
  | float value => exact congrArg some (map_add f o (.float value)).symm
  | var name => exact congrArg some (map_add f o (.var name)).symm
  | _ => rfl

theorem follow_rename (f : String → String) (o : Outline String) (calls : List Call) :
    (o.map f).follow (calls.map (Call.rename f)) = (o.follow calls).map (map f) := by
  induction calls generalizing o with
  | nil => rfl
  | cons c rest ih =>
    rw [List.map_cons, follow, follow, step_rename]
    rcases o.step c with _ | after
    · rfl
    · exact ih after

/-- A call adds its variable. -/
theorem vars_of_step {o o' : Outline String} {c : Call} (h : o.step c = some o') :
    o'.vars = o.vars ++ c.var?.toList := by
  cases c with
  | closeTerm => rw [vars_closeTerm? h]; exact (List.append_nil _).symm
  | closeList => rw [vars_closeList? h]; exact (List.append_nil _).symm
  | fullStop => cases h
  | _ =>
    obtain rfl := Option.some.inj h
    simp [Call.var?, Term.vars, Term.varsAll]

theorem vars_of_follow {o o' : Outline String} {calls : List Call} (h : o.follow calls = some o') :
    o'.vars = o.vars ++ varNames calls := by
  induction calls generalizing o with
  | nil =>
    obtain rfl := Option.some.inj h
    exact (List.append_nil _).symm
  | cons c rest ih =>
    rw [follow] at h
    split at h
    · next after steps =>
      rw [ih h, vars_of_step steps, varNames, varNames, List.filterMap_cons, List.append_assoc]
      cases c.var? <;> rfl
    · cases h

end Outline

namespace Term

/-- Renamed calls have the renamed terms. -/
theorem ofCalls?_rename (f : String → String) {calls : List Call} {ts : List (Term String)}
    (has : ofCalls? calls = some ts) : ofCalls? (calls.map (Call.rename f)) = some (ts.map (map f)) := by
  rw [ofCalls?_eq_some] at has ⊢
  have renamed := Outline.follow_rename f .empty calls
  rw [has] at renamed
  exact renamed

/-- The variables of the terms of calls are those of the calls. -/
theorem vars_of_ofCalls? {calls : List Call} {ts : List (Term String)} (has : ofCalls? calls = some ts) :
    ts.flatMap vars = varNames calls := by
  have vars := Outline.vars_of_follow (ofCalls?_eq_some.mp has)
  simpa [Outline.vars, Outline.empty] using vars

/-- The terms of calls that are the same but for the names of their variables are two views of the same terms, in
which the variables are the pairs of names. -/
theorem exists_zip_of_calls {calls calls' : List Call} {ts ts' : List (Term String)}
    (same : SameButNames calls calls') (has : ofCalls? calls = some ts) (has' : ofCalls? calls' = some ts') :
    ∃ ps : List (Term (String × String)), ts = ps.map (map Prod.fst) ∧ ts' = ps.map (map Prod.snd) ∧
      ps.flatMap vars = (varNames calls).zip (varNames calls') := by
  have left := ofCalls?_rename (fun _ => "") has
  have right := ofCalls?_rename (fun _ => "") has'
  rw [SameButNames] at same
  rw [same] at left
  have shape := Option.some.inj (left.symm.trans right)
  rw [← mapAll_eq_map, ← mapAll_eq_map] at shape
  obtain ⟨ps, rfl, rfl⟩ := exists_zipAll ts ts' shape
  refine ⟨ps, mapAll_eq_map _ _, mapAll_eq_map _ _, ?_⟩
  rw [← vars_of_ofCalls? has, ← vars_of_ofCalls? has', mapAll_eq_map, mapAll_eq_map, flatMap_vars_map,
    flatMap_vars_map]
  exact List.zip_of_prod rfl rfl

end Term

end PrologWire

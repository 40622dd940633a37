import Mathlib
import PrologWire.Arena.Build
import PrologWire.Proofs.Sicstus.ReadBack

/-!
# Sentences of whole terms and back

Terms that were all written, one after the other, are on the sink with a sentence for each of them.
These decode to the terms in order if and only if no big integer among them has a null character
where its digits should be. A big integer of an epoch that was erased can have one, and then its one
sentence can be the same bytes as the sentences of two terms.
-/

namespace PrologWire.Sicstus

/-! ## Sentences on the sink -/

/-- The sentence of a tree that has pieces. -/
def treeSentence (t : Tree) : List UInt8 :=
  match pieces t with
  | .ok ps => versionTag :: piecesBytes (ps.flatMap Piece.vars).eraseDups.idxOf ps
  | .error _ => []

namespace Writer

/-- Writes terms one after the other, each of which stands in an arena as it is at that time. -/
def writeAll (w : Writer) : List (Arena × Handle) → List Answer × Writer
  | [] => ([], w)
  | (a, h) :: rest =>
    let (answer, w) := w.writeTerm a h
    let (answers, w) := w.writeAll rest
    (answer :: answers, w)

variable {w : Writer} {terms : List (Arena × Handle)}

/-- A sentence that was delivered is on the sink. -/
theorem content_deliver (ok : w.deliver.1 = .ok ()) :
    w.deliver.2.sink.content = w.sink.content ++ w.draft.buffer.content := by
  unfold deliver at ok ⊢
  rcases written : w.sink.write w.draft.buffer.bytes with ⟨_ | _, sink⟩
  · rw [written] at ok
    cases ok
  · exact (Sink.content_flush sink).trans (Sink.content_of_write written)

/-- A term that was written has pieces, and its sentence is on the sink. -/
theorem content_writeTerm {a : Arena} {h : Handle} (ok : (w.writeTerm a h).1 = .ok ()) :
    (∃ ps, pieces (a.tree h) = .ok ps) ∧
      (w.writeTerm a h).2.sink.content = w.sink.content ++ treeSentence (a.tree h) := by
  rcases has : pieces (a.tree h) with cause | ps
  · obtain ⟨draft, refused⟩ := writeTerm_of_error (w := w) has
    rw [refused] at ok
    cases ok
  · refine ⟨⟨ps, rfl⟩, ?_⟩
    rw [writeTerm_of_pieces has] at ok ⊢
    have content := content_deliver ok
    rw [Draft.content_foldl_restart] at content
    rw [treeSentence, has]
    exact content

/-- Terms that were all written have pieces, and their sentences are on the sink. -/
theorem content_writeAll (accepted : ∀ answer ∈ (w.writeAll terms).1, answer = .ok ()) :
    (∀ p ∈ terms, ∃ ps, pieces (p.1.tree p.2) = .ok ps) ∧
      (w.writeAll terms).2.sink.content =
        w.sink.content ++ terms.flatMap fun p => treeSentence (p.1.tree p.2) := by
  induction terms generalizing w with
  | nil => exact ⟨fun p among => absurd among List.not_mem_nil, (List.append_nil _).symm⟩
  | cons p rest ih =>
    obtain ⟨a, h⟩ := p
    obtain ⟨has, content⟩ := content_writeTerm (w := w) (accepted _ List.mem_cons_self)
    obtain ⟨others, all⟩ := ih (w := (w.writeTerm a h).2) fun answer among =>
      accepted answer (List.mem_cons_of_mem _ among)
    refine ⟨List.forall_mem_cons.mpr ⟨has, others⟩, ?_⟩
    rw [List.flatMap_cons, ← List.append_assoc, ← content]
    exact all

/-- Terms that have pieces are all written to a sink that accepts everything. -/
theorem writeAll_ok (accepts : w.sink.Accepting)
    (has : ∀ p ∈ terms, (pieces (p.1.tree p.2)).toBool = true) :
    ∀ answer ∈ (w.writeAll terms).1, answer = .ok () := by
  induction terms generalizing w with
  | nil => exact fun answer among => absurd among List.not_mem_nil
  | cons p rest ih =>
    obtain ⟨a, h⟩ := p
    rcases given : pieces (a.tree h) with cause | ps
    · have first := has (a, h) List.mem_cons_self
      rw [given] at first
      cases first
    · obtain ⟨w', written, accepts', -⟩ := writePieces_ok accepts ps
      have eq : w.writeTerm a h = (.ok (), w') := (writeTerm_of_pieces given).trans written
      rw [writeAll, eq]
      exact List.forall_mem_cons.mpr
        ⟨rfl, ih accepts' fun p among => has p (List.mem_cons_of_mem _ among)⟩

end Writer

/-! ## Back from the sink -/

/-- There is something to read of a tree with pieces, and it is read from the sentence if no text in
the tree has a null character. -/
theorem reads_treeSentence {t : Tree} {ps : List Piece} (has : pieces t = .ok ps) :
    ∃ r, t.reading? = some r ∧
      ((∀ l ∈ t.leaves, l.ZeroFree) → Reads readSentence r (treeSentence t)) := by
  obtain ⟨r, back⟩ := readBack_pieces (f := t.vars.eraseDups.idxOf) has
  refine ⟨r, back.reading, fun free rest => ?_⟩
  have read := back.back free (List.length_append ▸ Nat.le_add_right _ rest.length) rest
  rw [treeSentence, has]
  dsimp only
  rw [back.vars, List.cons_append, readSentence, if_pos rfl]
  exact read

/-- A sentence has a byte at least. -/
theorem treeSentence_ne_nil {t : Tree} {ps : List Piece} (has : pieces t = .ok ps) :
    treeSentence t ≠ [] := by
  rw [treeSentence, has]
  exact List.cons_ne_nil _ _

/-- Only the texts of atoms and of big integers can have a null character. -/
theorem zeroFree_of_texts {t : Tree} (names : ∀ name ∈ t.names, '\x00' ∉ name.toList)
    (digits : ∀ text ∈ t.bigDigits, '\x00' ∉ text.toList) : ∀ l ∈ t.leaves, l.ZeroFree := by
  intro l among
  cases l with
  | atom name => exact names name (List.mem_filterMap.mpr ⟨_, among, rfl⟩)
  | bigint text => exact digits text (List.mem_filterMap.mpr ⟨_, among, rfl⟩)
  | _ => exact trivial

/-- What is on the sink after terms were all written, in whose names there is no null character,
decodes to these terms in order if and only if the digits of their big integers have no null
character, too. -/
theorem decode_content_writeAll {sink : Sink} (fresh : sink.content = [])
    {terms : List (Arena × Handle)}
    (accepted : ∀ answer ∈ ((Writer.new sink).writeAll terms).1, answer = .ok ())
    (plain : ∀ p ∈ terms, ∀ name ∈ (p.1.tree p.2).names, '\x00' ∉ name.toList) :
    ∃ rs, (terms.map fun p => (p.1.tree p.2).reading?) = rs.map some ∧
      (decode ((Writer.new sink).writeAll terms).2.sink.content = some rs ↔
        ∀ p ∈ terms, ∀ text ∈ (p.1.tree p.2).bigDigits, '\x00' ∉ text.toList) := by
  obtain ⟨has, content⟩ := Writer.content_writeAll accepted
  have nothing : (Writer.new sink).sink.content = [] := fresh
  rw [nothing, List.nil_append] at content
  -- every term has something to be read, so that the default never counts
  obtain ⟨read, reading⟩ : ∃ read : Arena × Handle → Reading,
      ∀ p ∈ terms, (p.1.tree p.2).reading? = some (read p) := by
    refine ⟨fun p => (p.1.tree p.2).reading?.getD default, fun p among => ?_⟩
    obtain ⟨ps, given⟩ := has p among
    obtain ⟨r, reads, -⟩ := reads_treeSentence given
    simp only [reads, Option.getD_some]
  refine ⟨terms.map read, ?_, ?_⟩
  · rw [List.map_map]
    exact List.map_congr_left reading
  · rw [content, decode]
    constructor
    · intro decoded p among text within
      exact null_notMem_digits_decode decoded (List.mem_map_of_mem among) text
        (Tree.bigDigits_subset_digits (reading p among) within)
    · intro digits
      refine readAll_flatMap (fun p among => ?_) (fun p among => ?_) (Nat.le_refl _)
      · obtain ⟨ps, given⟩ := has p among
        obtain ⟨r, reads, back⟩ := reads_treeSentence given
        obtain rfl := Option.some.inj (reads.symm.trans (reading p among))
        exact back (zeroFree_of_texts (plain p among) (digits p among))
      · obtain ⟨ps, given⟩ := has p among
        exact treeSentence_ne_nil given

/-- A compound of a list, in which a run stands between an empty list and a list of a run, and a
variable that it holds twice, and then a big integer. -/
def sampleTerms : List (Arena × Handle) :=
  let a := Arena.create ⟨0⟩ ⟨0⟩
  let (empty, a) := a.list []
  let (run, a) := a.list [.ofHandle (.int 7)]
  let (elems, a) :=
    a.list [.ofHandle empty, .ofHandle (.int 1), .ofHandle (.int 255), .ofHandle run]
  let (compound, a) := a.func "f" [(·.var "X"), .ofHandle elems, (·.var "Y"), (·.var "X")]
  let (big, a) := a.integer 10000000000000000000000000
  [(a, compound), (a, big)]

/-- What is read of these terms. -/
def sampleReadings : List Reading :=
  [.compound "f" [.var 0,
      .list [.list [], .integer "1", .integer "255", .list [.integer "7"]], .var 1, .var 0],
    .integer "10000000000000000000000000"]

theorem decode_content_writeAll_sampleTerms :
    decode ((Writer.new .unlimited).writeAll sampleTerms).2.sink.content = some sampleReadings := by
  have has : ∀ p ∈ sampleTerms, (pieces (p.1.tree p.2)).toBool = true := by decide +kernel
  have accepted := Writer.writeAll_ok (w := .new .unlimited) Sink.accepting_unlimited has
  have plain : ∀ p ∈ sampleTerms, ∀ name ∈ (p.1.tree p.2).names, '\x00' ∉ name.toList := by
    decide +kernel
  have digits : ∀ p ∈ sampleTerms, ∀ text ∈ (p.1.tree p.2).bigDigits, '\x00' ∉ text.toList := by
    decide +kernel
  have known : (sampleTerms.map fun p => (p.1.tree p.2).reading?) = sampleReadings.map some := by
    cbv
  obtain ⟨rs, readings, decoded⟩ := decode_content_writeAll rfl accepted plain
  obtain rfl := (List.map_inj_right fun _ _ => Option.some.inj).mp (known.symm.trans readings)
  exact decoded.mpr digits

/-- A big integer in an arena that is cleared, which keeps the name of its epoch, and then gets a
name as long as its digits; and in the same arena a big integer and an atom, which are the parts of
that name. -/
def confusedTerms : Except TermError (List (Arena × Handle) × List (Arena × Handle)) :=
  let (h, a) := (Arena.create ⟨0⟩ ⟨0⟩).integer 100000000000000000000000000
  a.clear.map fun a =>
    let a := (a.atom "10000000000000000000\x00DAabcd").2
    let (big, a) := a.integer 10000000000000000000
    let (atom, a) := a.atom "abcd"
    ([(a, h)], [(a, big), (a, atom)])

/-- No decoder has all terms back: one term with a big integer that was erased is written as the
same bytes as two others. -/
theorem not_exists_decoder : ¬∃ decoder : List UInt8 → Option (List Reading),
    ∀ terms : List (Arena × Handle),
      (∀ answer ∈ ((Writer.new .unlimited).writeAll terms).1, answer = .ok ()) →
      (∀ p ∈ terms, ∀ name ∈ (p.1.tree p.2).names, '\x00' ∉ name.toList) →
        ∃ rs, (terms.map fun p => (p.1.tree p.2).reading?) = rs.map some ∧
          decoder ((Writer.new .unlimited).writeAll terms).2.sink.content = some rs := by
  rintro ⟨decoder, back⟩
  obtain ⟨⟨one, two⟩, made⟩ : ∃ made, confusedTerms = .ok made := ⟨_, rfl⟩
  have evaluated : ∀ made ∈ confusedTerms.toOption,
      (∀ p ∈ made.1 ++ made.2, (pieces (p.1.tree p.2)).toBool = true ∧
        ∀ name ∈ (p.1.tree p.2).names, '\x00' ∉ name.toList) ∧
      made.1.length ≠ made.2.length ∧
      (made.1.flatMap fun p => treeSentence (p.1.tree p.2)) =
        made.2.flatMap fun p => treeSentence (p.1.tree p.2) := by
    decide +kernel
  rw [made] at evaluated
  obtain ⟨good, lengths, sentences⟩ := evaluated (one, two) rfl
  rw [List.forall_mem_append] at good
  have accepted₁ := Writer.writeAll_ok (w := .new .unlimited) Sink.accepting_unlimited
    fun p among => (good.1 p among).1
  have accepted₂ := Writer.writeAll_ok (w := .new .unlimited) Sink.accepting_unlimited
    fun p among => (good.2 p among).1
  obtain ⟨rs₁, readings₁, decoded₁⟩ := back one accepted₁ fun p among => (good.1 p among).2
  obtain ⟨rs₂, readings₂, decoded₂⟩ := back two accepted₂ fun p among => (good.2 p among).2
  -- the same bytes decode to as many terms
  rw [(Writer.content_writeAll accepted₁).2, sentences, ← (Writer.content_writeAll accepted₂).2,
    decoded₂] at decoded₁
  obtain rfl := Option.some.inj decoded₁
  have length₁ := congrArg List.length readings₁
  have length₂ := congrArg List.length readings₂
  rw [List.length_map, List.length_map] at length₁ length₂
  exact lengths (length₁.trans length₂.symm)

end PrologWire.Sicstus

/-!
# Where encoded bytes go

A sink takes bytes in order. It may run full, after which a write that brings any byte fails, and
it may refuse to be flushed. A sink that fails once and then takes bytes again is not of this kind: it
cannot be given for a run of calls as a whole, but another sink can be put in its place between two calls.
-/

namespace PrologWire

/-- A receiver of bytes. -/
structure Sink where
  /-- All bytes received, in order. -/
  written : Array UInt8
  /-- How many more bytes it takes; without a number it takes all. -/
  room : Option Nat
  /-- Flushes fail. -/
  failsFlush : Bool
  /-- How many flushes succeeded. -/
  flushes : Nat
deriving Inhabited

namespace Sink

/-- A sink that has received nothing and takes everything. -/
def unlimited : Sink := ⟨#[], none, false, 0⟩

/-- The bytes of a write that still fit. -/
def fitting (s : Sink) (bs : Array UInt8) : Array UInt8 :=
  match s.room with
  | none => bs
  | some n => bs.extract 0 n

/-- Takes the bytes that fit, and tells whether that was all of them. -/
def write (s : Sink) (bs : Array UInt8) : Bool × Sink :=
  let taken := s.fitting bs
  (taken.size = bs.size,
    { s with written := s.written ++ taken, room := s.room.map (· - taken.size) })

/-- Flushes, and tells whether that succeeded. -/
def flush (s : Sink) : Bool × Sink :=
  if s.failsFlush then (false, s) else (true, { s with flushes := s.flushes + 1 })

/-- A sink without a bound takes every write whole. -/
theorem write_of_room_eq_none (s : Sink) (bs : Array UInt8) (h : s.room = none) :
    s.write bs = (true, { s with written := s.written ++ bs }) := by
  simp [write, fitting, h]

end Sink

end PrologWire

import PixelUnit.Log
import PixelUnit.Sheet.Lexeme

/-!
# Scanning

A scanner stands somewhere in a source. It gives one character or one token at a time and keeps
count of its place; faults that do not end the reading are noted as they are met. `Scanner.scan`
reads all tokens that are left.
-/

namespace PixelUnit.Sheet

/-- A place in a source, and the faults met before it. -/
structure Scanner where
  rest : List Char
  index : Nat
  pos : Position
  faults : List Fault

namespace Scanner

/-- A scanner at the start of a source. -/
def ofSource (source : List Char) : Scanner :=
  ⟨source, 0, .start, []⟩

/-- The character `amount` places ahead; the next one is one place ahead. -/
def peek (s : Scanner) (amount : Nat) : Option Char :=
  s.rest[amount - 1]?

/-- The scanner behind `taken`, with `rest` left to read. -/
def moveTo (s : Scanner) (taken rest : List Char) : Scanner :=
  { s with rest := rest, index := s.index + taken.length, pos := s.pos.advance taken }

/-- One character. -/
def next (s : Scanner) : Option Char × Scanner :=
  match s.rest with
  | [] => (none, s)
  | c :: r => (some c, s.moveTo [c] r)

/-- One token; at the end of the source, again and again, a token of class `ending`. A comment
without an end uses up the source and gives no token. -/
def consume (s : Scanner) : Except Fault Token × Scanner :=
  match s.rest with
  | [] => (.ok ⟨.ending, "", s.pos⟩, s)
  | c :: r =>
    match Lexeme.read c r with
    | .error e => (.error ⟨e, s.pos⟩, s.moveTo s.rest [])
    | .ok l =>
      let s' := s.moveTo l.raw l.rest
      (.ok ⟨l.kind, String.ofList l.raw, s.pos⟩,
        { s' with faults := s.faults ++ (l.fault.map (⟨·, s.pos⟩)).toList })

/-- Consuming at a character leaves less to read. -/
theorem consume_rest_length_lt {s : Scanner} (h : s.rest ≠ []) :
    s.consume.2.rest.length < s.rest.length := by
  unfold consume
  split
  · contradiction
  · rename_i c r hr
    split
    · simp [moveTo, hr]
    · rename_i l hl
      simpa [moveTo, hr] using Lexeme.rest_length_lt hl

/-- The tokens read up to the end or to a comment without an end, that failure if there was one,
and the scanner afterwards. -/
structure Scan where
  tokens : List Token
  failure : Option Fault
  final : Scanner

/-- All tokens that are left. -/
def scan (s : Scanner) : Scan :=
  if h : s.rest = [] then ⟨[], none, s⟩
  else
    match hs : s.consume with
    | (.error e, s') => ⟨[], some e, s'⟩
    | (.ok t, s') =>
      have : s'.rest.length < s.rest.length := by
        have := consume_rest_length_lt h
        rwa [hs] at this
      let more := s'.scan
      ⟨t :: more.tokens, more.failure, more.final⟩
termination_by s.rest.length

end Scanner

/-- The tokens of a source, with the failure and the faults met. -/
def scanSource (source : String) : Scanner.Scan :=
  (Scanner.ofSource source.toList).scan

/-- The records that scanning leaves: one per fault noted. -/
def Scanner.log (s : Scanner) : Log :=
  s.faults.map fun f => ⟨.warning, .scanner, f.message⟩

end PixelUnit.Sheet

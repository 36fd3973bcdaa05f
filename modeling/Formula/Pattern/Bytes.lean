import Formula.Pattern.Longest

/-!
# Longest matches, byte by byte

A text is searched in UTF-8 with an automaton over bytes. The automaton says of a state which pattern matched, and
always a byte late: behind one more byte it is known what had matched in front of that byte. So a search goes on behind
the last byte with the step that the end of the text is, and it may stop early only where the automaton is dead. The
last match that was told is the longest.

`byDerivatives` is an automaton for any patterns. It gathers bytes until they are a character, and then the front of the
patterns advances.
-/

namespace Formula.Pattern

/-- The bytes of a text in UTF-8. -/
def utf8 (text : List Char) : List UInt8 := text.flatMap String.utf8EncodeChar

/-! ## Automata over bytes -/

/-- An automaton that reads bytes, with states `σ`. -/
structure ByteAutomaton (σ : Type) where
  /-- Where a search begins that has to match at its place, if the automaton can make one. -/
  start? : Option σ
  next : σ → UInt8 → σ
  /-- The step at the end of the text. -/
  finish : σ → σ
  /-- Nothing more is asked of a state that is not special. -/
  isSpecial : σ → Bool
  /-- The first of the patterns that matched, if the state tells that one did. -/
  matched? : σ → Option Nat
  /-- Nothing can match any more. -/
  isDead : σ → Bool
  /-- The automaton has given up. -/
  isQuit : σ → Bool

namespace ByteAutomaton

/-- The state behind some bytes. -/
def after {σ : Type} (a : ByteAutomaton σ) (state : σ) (bytes : List UInt8) : σ := bytes.foldl a.next state

/-- Reads on from a state, given the last match that was told and the number of bytes read so far. -/
def search {σ : Type} (a : ByteAutomaton σ) (state : σ) (last : Option Match) (read : Nat) :
    List UInt8 → Option Match
  | [] =>
    match a.matched? (a.finish state) with
    | some pattern => some ⟨pattern, read⟩
    | none => last
  | b :: bytes =>
    let state := a.next state b
    if a.isSpecial state then
      match a.matched? state with
      | some pattern => a.search state (some ⟨pattern, read⟩) (read + 1) bytes
      | none =>
        if a.isDead state || a.isQuit state then last
        else a.search state last (read + 1) bytes
    else a.search state last (read + 1) bytes

/-- The longest match at an offset, with its length in bytes. Without a state to begin in there is no answer. -/
def longestMatch? {σ : Type} (a : ByteAutomaton σ) (bytes : List UInt8) (offset : Nat) : Option (Option Match) :=
  a.start?.map fun state => a.search state none 0 (bytes.drop offset)

end ByteAutomaton

/-! ## Patterns as an automaton -/

/-- The character that some bytes begin with. -/
def char? (bytes : List UInt8) : Option Char := bytes.toByteArray.utf8DecodeChar? 0

/-- What is left of the patterns behind the characters that were read, the bytes behind these, and which pattern had
matched a byte ago. -/
structure ByteFront where
  front : Front
  gathered : List UInt8 := []
  told : Option Nat := none

namespace ByteFront

/-- The patterns in front of the first byte. -/
def start (ps : List Pattern) : ByteFront := { front := Front.start ps }

/-- The first pattern that matches what was read, which is no text if there are bytes behind the characters. -/
def accepted? (s : ByteFront) : Option Nat := if s.gathered = [] then s.front.accepted? else none

/-- One more byte. -/
def next (s : ByteFront) (b : UInt8) : ByteFront :=
  match char? (s.gathered ++ [b]) with
  | some c => { front := s.front.advance c, told := s.accepted? }
  | none => { s with gathered := s.gathered ++ [b], told := s.accepted? }

end ByteFront

/-- The automaton that patterns are, read character by character. -/
def byDerivatives (ps : List Pattern) : ByteAutomaton ByteFront where
  start? := some (.start ps)
  next := ByteFront.next
  finish s := { s with told := s.accepted? }
  isSpecial s := s.told.isSome || s.front.isEmpty
  matched? := ByteFront.told
  isDead s := s.told.isNone && s.front.isEmpty
  isQuit _ := false

end Formula.Pattern

import Formula.Token.Lexer

/-!
# Tokens on demand

A text that is read one token at a time. `Stream.next` gives the next token, or the error that the reading ends
with. A character that stands for two tokens leaves the second one for the next call, and after the end of the
input or an error there is nothing more. A text is read by byte offsets, and a lexeme is a slice of it.
-/

namespace Formula

open Text (Cursor)

namespace Pattern

/-- The characters that fill the first `n` bytes of a text. -/
def upToByte : Nat → List Char → List Char
  | 0, _ => []
  | _, [] => []
  | n + 1, c :: cs => if c.utf8Size ≤ n + 1 then c :: upToByte (n + 1 - c.utf8Size) cs else []

/-! ## Slices at characters -/

theorem byteLength_append (xs ys : List Char) : byteLength (xs ++ ys) = byteLength xs + byteLength ys := by
  induction xs with
  | nil => simp [byteLength]
  | cons c xs ih => simp [byteLength, ih, Nat.add_assoc]

/-- A text is cut at a number of bytes where its front has as many. -/
theorem bytes_append (xs ys : List Char) :
    upToByte (byteLength xs) (xs ++ ys) = xs ∧ fromByte (byteLength xs) (xs ++ ys) = ys := by
  induction xs with
  | nil => simp [byteLength, upToByte, fromByte]
  | cons c xs ih =>
    have hpos := c.utf8Size_pos
    obtain ⟨n, hn⟩ : ∃ n, c.utf8Size + byteLength xs = n + 1 :=
      Nat.exists_eq_succ_of_ne_zero (by omega)
    have hle : c.utf8Size ≤ n + 1 := by omega
    have hrest : n + 1 - c.utf8Size = byteLength xs := by omega
    rw [byteLength, hn, List.cons_append, upToByte, fromByte, if_pos hle, if_pos hle, hrest, ih.1, ih.2]
    exact ⟨rfl, rfl⟩

theorem byteLength_eq_zero_iff {xs : List Char} : byteLength xs = 0 ↔ xs = [] := by
  cases xs with
  | nil => simp [byteLength]
  | cons c xs =>
    have := c.utf8Size_pos
    simp only [byteLength, reduceCtorEq, iff_false]
    omega

theorem utf8ByteSize_ofList (xs : List Char) : (String.ofList xs).utf8ByteSize = byteLength xs := by
  induction xs with
  | nil => rfl
  | cons c xs ih =>
    rw [← List.singleton_append, String.ofList_append, String.utf8ByteSize_append, ih, ← String.singleton_eq_ofList,
      String.utf8ByteSize_singleton]
    rfl

end Pattern

namespace Lexer

/-- The next nonempty piece at a byte offset, and what it is read as. -/
def lexeme? (text : List Char) (offset : Nat) : Option (List Char × Piece) := do
  let m ← Pattern.longestAt patterns text offset
  let (_, piece) ← rules[m.pattern]?
  if m.length = 0 then none else some (Pattern.upToByte m.length (Pattern.fromByte offset text), piece)

theorem ne_nil_of_lexeme? {text : List Char} {offset : Nat} {lexeme : List Char} {a : Piece}
    (h : lexeme? text offset = some (lexeme, a)) : lexeme ≠ [] := by
  unfold lexeme? at h
  obtain ⟨m, hm, h⟩ := Option.bind_eq_some_iff.mp h
  obtain ⟨⟨p, piece⟩, -, h⟩ := Option.bind_eq_some_iff.mp h
  obtain ⟨m, -, rfl⟩ := Option.map_eq_some_iff.mp hm
  dsimp only at h
  split at h
  · cases h
  · rename_i hne
    obtain ⟨rfl, -⟩ := Prod.mk.inj (Option.some.inj h)
    have hslice := Pattern.bytes_append ((Pattern.fromByte offset text).take m.length)
      ((Pattern.fromByte offset text).drop m.length)
    rw [List.take_append_drop] at hslice
    rw [hslice.1]
    exact fun hnil => hne (Pattern.byteLength_eq_zero_iff.mpr hnil)

/-- A text that is being read: how far, the second token of a pair if it is still to come, and whether the reading
has ended. -/
structure Stream where
  text : List Char
  cursor : Cursor := {}
  pending : Option Token := none
  done : Bool := false

namespace Stream

/-- Reads on to the next token. -/
def read (s : Stream) : Except Error Token × Stream :=
  if Pattern.byteLength s.text ≤ s.cursor.offset then
    (.ok (.finish s.cursor.position), { s with done := true })
  else
    match _hp : lexeme? s.text s.cursor.offset with
    | none =>
      let text := (Pattern.fromByte s.cursor.offset s.text).take 1
      (.error (.unrecognized (String.ofList text) s.cursor.position), s)
    | some (lexeme, piece) =>
      let moved := s.cursor.advance (String.ofList lexeme)
      let token (symbol : Symbol) : Token := ⟨symbol, String.ofList lexeme, moved.1, .nothing⟩
      match symbols (String.ofList lexeme) piece with
      | [] => read { s with cursor := moved.2 }
      | first :: second => (.ok (token first), { s with cursor := moved.2, pending := second.head?.map token })
termination_by Pattern.byteLength s.text - s.cursor.offset
decreasing_by
  have hpos : Pattern.byteLength lexeme ≠ 0 := fun h0 =>
    ne_nil_of_lexeme? _hp (Pattern.byteLength_eq_zero_iff.mp h0)
  simp only [Cursor.advance, Pattern.utf8ByteSize_ofList]
  omega

/-- The next token or error, if there is one. -/
def next (s : Stream) : Option (Except Error Token) × Stream :=
  match s.pending with
  | some token => (some (.ok token), { s with pending := none })
  | none =>
    if s.done then
      (none, s)
    else
      match s.read with
      | (.ok token, s) => (some (.ok token), s)
      | (.error e, s) => (some (.error e), { s with done := true })

end Stream

/-- The tokens of a text, none of them read yet. -/
def stream (text : String) : Stream := { text := text.toList }

end Lexer

end Formula

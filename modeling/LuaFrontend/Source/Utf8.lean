set_option autoImplicit false

namespace LuaFrontend.Utf8

/-- Stands for bytes that are not part of a character. -/
def replacement : Char := '\uFFFD'

/-- A character in the making: the bits read so far, the bytes owed, and the range of the next. -/
structure Unfinished where
  bits : Nat
  owed : Nat
  least : UInt8 := 0x80
  greatest : UInt8 := 0xBF

/-- The characters that a byte completes, when it is the first of its character. The ranges of the
second byte leave out overlong forms, surrogates and everything above U+10FFFF. -/
def first (b : UInt8) : List Char × Option Unfinished :=
  let bits := b.toNat
  if b < 0x80 then ([Char.ofNat bits], none)
  else if b < 0xC2 then ([replacement], none)
  else if b < 0xE0 then ([], some { bits := bits - 0xC0, owed := 1 })
  else if b = 0xE0 then ([], some { bits := 0, owed := 2, least := 0xA0 })
  else if b = 0xED then ([], some { bits := 0xD, owed := 2, greatest := 0x9F })
  else if b < 0xF0 then ([], some { bits := bits - 0xE0, owed := 2 })
  else if b = 0xF0 then ([], some { bits := 0, owed := 3, least := 0x90 })
  else if b < 0xF4 then ([], some { bits := bits - 0xF0, owed := 3 })
  else if b = 0xF4 then ([], some { bits := 4, owed := 3, greatest := 0x8F })
  else ([replacement], none)

/-- The characters that a byte completes. One that cannot go on the character in the making ends it
and is read as a first byte. -/
def step (made : Option Unfinished) (b : UInt8) : List Char × Option Unfinished :=
  match made with
  | none => first b
  | some u =>
    if u.least ≤ b && b ≤ u.greatest then
      let bits := u.bits * 64 + (b.toNat - 0x80)
      if u.owed ≤ 1 then ([Char.ofNat bits], none) else ([], some { bits, owed := u.owed - 1 })
    else
      let next := first b
      (replacement :: next.1, next.2)

/-- Decodes bytes that follow the beginning of a character, if there is one. -/
def decodeFrom (made : Option Unfinished) : List UInt8 → List Char
  | [] => if made.isSome then [replacement] else []
  | b :: rest => (step made b).1 ++ decodeFrom (step made b).2 rest

def decodeLossy (bytes : List UInt8) : List Char := decodeFrom none bytes

/-- Bytes are well-formed exactly when their text has them as its encoding. -/
def decode? (bytes : List UInt8) : Option (List Char) :=
  let text := decodeLossy bytes
  if text.flatMap String.utf8EncodeChar = bytes then some text else none

/-- Bytes of the character that a byte announces, by its high bits alone. A byte from the middle
of a character announces itself. -/
def announcedWidth (b : UInt8) : Nat :=
  if b < 0xC0 then 1 else if b < 0xE0 then 2 else if b < 0xF0 then 3 else 4

end LuaFrontend.Utf8

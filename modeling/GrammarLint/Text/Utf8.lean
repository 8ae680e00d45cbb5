namespace GrammarLint.Text.Utf8

inductive Reason where
  | invalidStart
  | invalidContinuation
  | unexpectedEnd
deriving DecidableEq, Repr

def Reason.text : Reason → String
  | .invalidStart => "invalid start byte"
  | .invalidContinuation => "invalid continuation byte"
  | .unexpectedEnd => "unexpected end of data"

/-- Bytes that are no character, and where they start. -/
structure Error where
  reason : Reason
  position : Nat
  bytes : List UInt8
deriving DecidableEq, Repr

def byteText (b : UInt8) : String :=
  "0x" ++ String.ofList [Nat.digitChar (b.toNat / 16), Nat.digitChar (b.toNat % 16)]

def Error.message (error : Error) : String :=
  match error.bytes with
  | [b] => s!"'utf-8' codec can't decode byte {byteText b} in position {error.position}: {error.reason.text}"
  | bytes =>
    let last := error.position + bytes.length - 1
    s!"'utf-8' codec can't decode bytes in position {error.position}-{last}: {error.reason.text}"

/-- The first bytes of a character: its bits so far, how many bytes are to come and the bounds of
the next one. -/
structure Pending where
  bytes : List UInt8
  value : Nat
  owed : Nat
  low : Nat
  high : Nat
deriving DecidableEq, Repr

/-- What the first byte of a longer character tells. -/
def lead (b : UInt8) : Option Pending :=
  let n := b.toNat
  let pending (value owed low high : Nat) : Option Pending := some ⟨[b], value, owed, low, high⟩
  if n < 0xc2 then none
  else if n < 0xe0 then pending (n - 0xc0) 1 0x80 0xbf
  else if n < 0xf0 then
    pending (n - 0xe0) 2 (if n == 0xe0 then 0xa0 else 0x80) (if n == 0xed then 0x9f else 0xbf)
  else if n < 0xf5 then
    pending (n - 0xf0) 3 (if n == 0xf0 then 0x90 else 0x80) (if n == 0xf4 then 0x8f else 0xbf)
  else none

/-- The characters of bytes from a position on, with a character begun or not. -/
def decodeFrom (position : Nat) (pending : Option Pending) :
    List UInt8 → Except Error (List Char)
  | [] =>
    match pending with
    | none => .ok []
    | some p => .error ⟨.unexpectedEnd, position - p.bytes.length, p.bytes⟩
  | b :: rest =>
    match pending with
    | none =>
      if b.toNat < 0x80 then do
        return Char.ofNat b.toNat :: (← decodeFrom (position + 1) none rest)
      else
        match lead b with
        | none => .error ⟨.invalidStart, position, [b]⟩
        | some p => decodeFrom (position + 1) (some p) rest
    | some p =>
      if b.toNat < p.low || p.high < b.toNat then
        .error ⟨.invalidContinuation, position - p.bytes.length, p.bytes⟩
      else
        let value := p.value * 64 + (b.toNat - 0x80)
        if p.owed ≤ 1 then do
          return Char.ofNat value :: (← decodeFrom (position + 1) none rest)
        else
          decodeFrom (position + 1) (some ⟨p.bytes ++ [b], value, p.owed - 1, 0x80, 0xbf⟩) rest

def decode (bytes : List UInt8) : Except Error (List Char) := decodeFrom 0 none bytes

def encode (cs : List Char) : List UInt8 := cs.flatMap String.utf8EncodeChar

end GrammarLint.Text.Utf8

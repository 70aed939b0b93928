import CommandShell.Text.Quoted

/-! # UTF-8: bytes read as characters

A character is one byte below `0x80`, or a start byte with one to three continuation bytes; overlong
forms, surrogates and code points beyond `0x10ffff` are refused at the first byte that shows them. A
refusal names the bytes of the character as far as they were valid. -/

namespace CommandShell.Text

/-- Why a byte sequence is not a character. -/
inductive Utf8Fault where
  | invalidStart
  | invalidContinuation
  | truncated
deriving DecidableEq, Repr

/-- The refusal of the bytes from `start` on, `count` of them, of which `byte` is the first. -/
structure Utf8Error where
  fault : Utf8Fault
  byte : UInt8
  start : Nat
  count : Nat
deriving DecidableEq, Repr

/-- What is wrong with the bytes. -/
def Utf8Fault.reason : Utf8Fault → String
  | .invalidStart => "invalid start byte"
  | .invalidContinuation => "invalid continuation byte"
  | .truncated => "unexpected end of data"

/-- One byte is named by its value, several by their positions. -/
def Utf8Error.message (e : Utf8Error) : String :=
  let place :=
    if e.count = 1 then s!"byte 0x{String.ofList (hex 2 e.byte.toNat)} in position {e.start}"
    else s!"bytes in position {e.start}-{e.start + e.count - 1}"
  s!"'utf-8' codec can't decode {place}: {e.fault.reason}"

/-- Does the byte continue a character? -/
def isContinuation (b : UInt8) : Bool := 0x80 ≤ b && b < 0xc0

/-- May the byte follow the start byte? After four start bytes only a part of the continuation bytes
may: the others would make an overlong form, a surrogate or too large a code point. -/
def mayFollow (first second : UInt8) : Bool :=
  isContinuation second &&
    (if first = 0xe0 then 0xa0 ≤ second else if first = 0xed then second < 0xa0
     else if first = 0xf0 then 0x90 ≤ second else if first = 0xf4 then second < 0x90 else true)

/-- The six low bits of a continuation byte. -/
def lowBits (b : UInt8) : Nat := b.toNat % 64

/-- The characters written by the bytes, the first of which is at position `start`. -/
def decodeUtf8From (start : Nat) : List UInt8 → Except Utf8Error (List Char)
  | [] => .ok []
  | b :: rest =>
    if b < 0x80 then (Char.ofNat b.toNat :: ·) <$> decodeUtf8From (start + 1) rest
    else if b < 0xc2 then .error ⟨.invalidStart, b, start, 1⟩
    else if b < 0xe0 then
      match rest with
      | [] => .error ⟨.truncated, b, start, 1⟩
      | c :: rest =>
        if mayFollow b c then
          (Char.ofNat (b.toNat % 32 * 64 + lowBits c) :: ·) <$> decodeUtf8From (start + 2) rest
        else .error ⟨.invalidContinuation, b, start, 1⟩
    else if b < 0xf0 then
      match rest with
      | [] => .error ⟨.truncated, b, start, 1⟩
      | c :: rest =>
        if mayFollow b c then
          match rest with
          | [] => .error ⟨.truncated, b, start, 2⟩
          | d :: rest =>
            if isContinuation d then
              (Char.ofNat ((b.toNat % 16 * 64 + lowBits c) * 64 + lowBits d) :: ·) <$>
                decodeUtf8From (start + 3) rest
            else .error ⟨.invalidContinuation, b, start, 2⟩
        else .error ⟨.invalidContinuation, b, start, 1⟩
    else if b < 0xf5 then
      match rest with
      | [] => .error ⟨.truncated, b, start, 1⟩
      | c :: rest =>
        if mayFollow b c then
          match rest with
          | [] => .error ⟨.truncated, b, start, 2⟩
          | d :: rest =>
            if isContinuation d then
              match rest with
              | [] => .error ⟨.truncated, b, start, 3⟩
              | e :: rest =>
                if isContinuation e then
                  (Char.ofNat (((b.toNat % 8 * 64 + lowBits c) * 64 + lowBits d) * 64 + lowBits e)
                    :: ·) <$> decodeUtf8From (start + 4) rest
                else .error ⟨.invalidContinuation, b, start, 3⟩
            else .error ⟨.invalidContinuation, b, start, 2⟩
        else .error ⟨.invalidContinuation, b, start, 1⟩
    else .error ⟨.invalidStart, b, start, 1⟩

/-- The text that the bytes write. -/
def decodeUtf8 (bytes : List UInt8) : Except Utf8Error String :=
  String.ofList <$> decodeUtf8From 0 bytes

end CommandShell.Text

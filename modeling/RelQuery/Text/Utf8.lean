/-
Bytes read as UTF-8 text, with the position and size of the first fault.

A fault is either a sequence that the next byte (or the lead byte itself) makes wrong, or one that the end of the
input cuts short. Its position counts the bytes of the well-formed part before it; its size is the number of bytes
that belong to the broken sequence.
-/
namespace RelQuery.Text

/-- why bytes are no text -/
inductive Utf8Fault where
  /-- `size` bytes from `index` on form no character -/
  | invalid (size index : Nat)
  /-- the input ends inside the character that begins at `index` -/
  | incomplete (index : Nat)
deriving DecidableEq, Repr

def Utf8Fault.message : Utf8Fault → String
  | .invalid size index => "invalid utf-8 sequence of " ++ toString size ++ " bytes from index " ++ toString index
  | .incomplete index => "incomplete utf-8 byte sequence from index " ++ toString index

/-- how many bytes a lead byte announces; continuation bytes, 0xC0, 0xC1 and those above 0xF4 announce none -/
def sequenceLength (lead : Nat) : Nat :=
  if lead < 0x80 then 1
  else if lead < 0xC2 then 0
  else if lead < 0xE0 then 2
  else if lead < 0xF0 then 3
  else if lead < 0xF5 then 4
  else 0

def isContinuation (b : Nat) : Bool := 0x80 ≤ b && b < 0xC0

/-- The second byte excludes overlong forms, surrogates and code points beyond the last one. -/
def isSecond (lead b : Nat) : Bool :=
  if lead = 0xE0 then 0xA0 ≤ b && b < 0xC0
  else if lead = 0xED then 0x80 ≤ b && b < 0xA0
  else if lead = 0xF0 then 0x90 ≤ b && b < 0xC0
  else if lead = 0xF4 then 0x80 ≤ b && b < 0x90
  else isContinuation b

/-- the characters of the bytes from position `index` on -/
def decodeFrom (index : Nat) : List UInt8 → Except Utf8Fault (List Char)
  | [] => .ok []
  | b :: rest =>
    match sequenceLength b.toNat, rest with
    | 1, rest => do
      let tail ← decodeFrom (index + 1) rest
      return Char.ofNat b.toNat :: tail
    | 0, _ => .error (.invalid 1 index)
    | _, [] => .error (.incomplete index)
    | size, c :: rest =>
      if !isSecond b.toNat c.toNat then .error (.invalid 1 index)
      else if size = 2 then do
        let tail ← decodeFrom (index + 2) rest
        return Char.ofNat ((b.toNat - 0xC0) * 64 + (c.toNat - 0x80)) :: tail
      else
        match rest with
        | [] => .error (.incomplete index)
        | d :: rest =>
          if !isContinuation d.toNat then .error (.invalid 2 index)
          else if size = 3 then do
            let tail ← decodeFrom (index + 3) rest
            return Char.ofNat (((b.toNat - 0xE0) * 64 + (c.toNat - 0x80)) * 64 + (d.toNat - 0x80)) :: tail
          else
            match rest with
            | [] => .error (.incomplete index)
            | e :: rest =>
              if !isContinuation e.toNat then .error (.invalid 3 index)
              else do
                let tail ← decodeFrom (index + 4) rest
                return Char.ofNat ((((b.toNat - 0xF0) * 64 + (c.toNat - 0x80)) * 64 + (d.toNat - 0x80)) * 64
                  + (e.toNat - 0x80)) :: tail

/-- the text of the bytes, or the first fault -/
def decode (bytes : List UInt8) : Except Utf8Fault String :=
  (decodeFrom 0 bytes).map String.ofList

end RelQuery.Text

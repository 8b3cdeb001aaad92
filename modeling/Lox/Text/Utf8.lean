import Lox.Text.Quoted

/-! UTF-8 read from bytes. What is not UTF-8 is named by its fault, its first byte, its place and the
number of bytes that fit the form so far. Overlong forms, surrogates and numbers above 0x10ffff are
refused at their second byte. -/

namespace Lox.Text

inductive Utf8Fault where
  | start
  | continuation
  | ending

structure Utf8Error where
  fault : Utf8Fault
  byte : Nat
  position : Nat
  count : Nat

/-- The number of bytes that follow a first byte. -/
def followers? (first : Nat) : Option Nat :=
  if first < 0x80 then some 0
  else if first < 0xc2 then none
  else if first < 0xe0 then some 1
  else if first < 0xf0 then some 2
  else if first < 0xf5 then some 3
  else none

def isSecond (first byte : Nat) : Bool :=
  (if first = 0xe0 then 0xa0 else if first = 0xf0 then 0x90 else 0x80) ≤ byte &&
    byte ≤ (if first = 0xed then 0x9f else if first = 0xf4 then 0x8f else 0xbf)

def isContinuation (byte : Nat) : Bool := 0x80 ≤ byte && byte ≤ 0xbf

/-- The bytes after `first` that can belong to its character, `n` at most. -/
def following (first n : Nat) : List Nat → List Nat
  | [] => []
  | b :: bs => if n ≠ 0 && isSecond first b then b :: (bs.take (n - 1)).takeWhile isContinuation else []

def codePoint (first : Nat) : List Nat → Nat
  | [] => first
  | rest => rest.foldl (fun n b => n * 64 + b % 64) (first % Nat.pow 2 (6 - rest.length))

def decodeFrom (position : Nat) : List Nat → Except Utf8Error (List Char)
  | [] => .ok []
  | b :: bs =>
    match followers? b with
    | none => .error ⟨.start, b, position, 1⟩
    | some n =>
      let held := following b n bs
      if held.length = n then
        (decodeFrom (position + n + 1) (bs.drop n)).map (Char.ofNat (codePoint b held) :: ·)
      else
        let fault := if held.length = bs.length then .ending else .continuation
        .error ⟨fault, b, position, held.length + 1⟩
termination_by bytes => bytes.length
decreasing_by simp only [List.length_drop, List.length_cons]; omega

def decode (bytes : List Nat) : Except Utf8Error String :=
  (decodeFrom 0 bytes).map String.ofList

def Utf8Fault.message : Utf8Fault → String
  | .start => "invalid start byte"
  | .continuation => "invalid continuation byte"
  | .ending => "unexpected end of data"

def Utf8Error.message (e : Utf8Error) : String :=
  let place :=
    if e.count = 1 then s!"byte 0x{String.ofList (hexDigits 2 e.byte)} in position {e.position}"
    else s!"bytes in position {e.position}-{e.position + e.count - 1}"
  s!"'utf-8' codec can't decode {place}: {e.fault.message}"

/-- Every line ending becomes a line feed. -/
def unifyNewlines : List Char → List Char
  | '\r' :: '\n' :: cs => '\n' :: unifyNewlines cs
  | '\r' :: cs => '\n' :: unifyNewlines cs
  | c :: cs => c :: unifyNewlines cs
  | [] => []

end Lox.Text

import ModularLisp.Text.Quoted

/-!
# UTF-8

Octets are read one at a time. A sequence is refused at the first octet that no character continues
with, and the report covers the longest prefix that one could have.
-/

namespace ModularLisp.Text.Utf8

inductive Reason where
  | invalidStart
  | invalidContinuation
  | endOfData
  deriving DecidableEq, Repr

def Reason.message : Reason → String
  | .invalidStart => "invalid start byte"
  | .invalidContinuation => "invalid continuation byte"
  | .endOfData => "unexpected end of data"

/-- A malformed sequence: its first octet, where that stands, and how many octets it covers. -/
structure Malformed where
  octet : Nat
  position : Nat
  length : Nat
  reason : Reason
  deriving DecidableEq, Repr

def Malformed.place (m : Malformed) : String :=
  if m.length = 1 then
    "byte 0x" ++ String.ofList (hexDigits 2 m.octet) ++ " in position " ++ toString m.position
  else
    "bytes in position " ++ toString m.position ++ "-" ++ toString (m.position + m.length - 1)

def Malformed.message (m : Malformed) : String :=
  "'utf-8' codec can't decode " ++ m.place ++ ": " ++ m.reason.message

/-- A character whose first octets were read: the octets still owed, the range of the next one, and
the bits so far. -/
structure Pending where
  lead : Nat
  start : Nat
  seen : Nat
  owed : Nat
  low : Nat
  high : Nat
  bits : Nat
  deriving DecidableEq, Repr

structure Progress where
  position : Nat
  pending : Option Pending
  decoded : List Char
  deriving DecidableEq, Repr

def Progress.start : Progress := ⟨0, none, []⟩

/-- What the first octet of a longer character asks for. -/
def Pending.ofLead? (position b : Nat) : Option Pending :=
  let opening (owed low high bits : Nat) : Option Pending :=
    some ⟨b, position, 1, owed, low, high, bits⟩
  if b < 0xc2 then none
  else if b < 0xe0 then opening 1 0x80 0xbf (b - 0xc0)
  else if b = 0xe0 then opening 2 0xa0 0xbf 0
  else if b = 0xed then opening 2 0x80 0x9f 0xd
  else if b < 0xf0 then opening 2 0x80 0xbf (b - 0xe0)
  else if b = 0xf0 then opening 3 0x90 0xbf 0
  else if b < 0xf4 then opening 3 0x80 0xbf (b - 0xf0)
  else if b = 0xf4 then opening 3 0x80 0x8f 4
  else none

def Pending.malformed (p : Pending) (reason : Reason) : Malformed :=
  ⟨p.lead, p.start, p.seen, reason⟩

def Progress.read (s : Progress) (octet : UInt8) : Except Malformed Progress :=
  let b := octet.toNat
  match s.pending with
  | none =>
    if b < 0x80 then .ok ⟨s.position + 1, none, Char.ofNat b :: s.decoded⟩
    else match Pending.ofLead? s.position b with
      | some p => .ok ⟨s.position + 1, some p, s.decoded⟩
      | none => .error ⟨b, s.position, 1, .invalidStart⟩
  | some p =>
    if p.low ≤ b ∧ b ≤ p.high then
      let bits := p.bits * 64 + (b - 0x80)
      if p.owed = 1 then .ok ⟨s.position + 1, none, Char.ofNat bits :: s.decoded⟩
      else
        let p := { p with seen := p.seen + 1, owed := p.owed - 1, low := 0x80, high := 0xbf, bits }
        .ok ⟨s.position + 1, some p, s.decoded⟩
    else .error (p.malformed .invalidContinuation)

def Progress.finish (s : Progress) : Except Malformed (List Char) :=
  match s.pending with
  | none => .ok s.decoded.reverse
  | some p => .error (p.malformed .endOfData)

def decode (octets : List UInt8) : Except Malformed (List Char) := do
  (← octets.foldlM Progress.read Progress.start).finish

/-- The octets of one character. -/
def encodeChar (c : Char) : List UInt8 :=
  let n := c.toNat
  let tail (unit : Nat) : UInt8 := UInt8.ofNat (0x80 + n / unit % 64)
  if n < 0x80 then [UInt8.ofNat n]
  else if n < 0x800 then [UInt8.ofNat (0xc0 + n / 64), tail 1]
  else if n < 0x10000 then [UInt8.ofNat (0xe0 + n / 4096), tail 64, tail 1]
  else [UInt8.ofNat (0xf0 + n / 262144), tail 4096, tail 64, tail 1]

def encode (cs : List Char) : List UInt8 := cs.flatMap encodeChar

example : decode [0xf0, 0x9f, 0x98, 0x80, 0x0a] = .ok ['😀', '\n'] := rfl
example : encode ['😀'] = [0xf0, 0x9f, 0x98, 0x80] := by decide
example : decode [0x22, 0xe2, 0x82, 0x28] = .error ⟨0xe2, 1, 2, .invalidContinuation⟩ := rfl
example : decode [0xf0, 0x9f] = .error ⟨0xf0, 0, 2, .endOfData⟩ := rfl

end ModularLisp.Text.Utf8

/-
  Rulebook.Settings.Address — addresses that a service listens on.

  An address of the older kind is four numbers and a port, `127.0.0.1:8080`, and its
  numbers have no leading zeros. One of the newer kind is eight groups of up to four
  hexadecimal digits in brackets, with a zone behind them if they need one, and a port:
  `[fe80::1%3]:80`. Two colons stand for the groups that are missing, all of them zero,
  and the last two groups may be written as four decimal numbers.

  The written form has the longest run of two or more zero groups left out, the first
  of several, and shows four decimal numbers exactly when the groups say that the
  address is one of the older kind.
-/

import Rulebook.Text.Digits

namespace Rulebook

structure Groups where
  list : List UInt16
  length_list : list.length = 8
  deriving DecidableEq

inductive Address where
  | v4 (a b c d : UInt8) (port : UInt16)
  | v6 (groups : Groups) (zone : UInt32) (port : UInt16)
  deriving DecidableEq

namespace Address

/-- Whether an address stands for all of a machine's. -/
def isAny : Address → Bool
  | .v4 a b c d _ => a == 0 && b == 0 && c == 0 && d == 0
  | .v6 groups _ _ => groups.list.all (· == 0)

/-! ## Writing -/

def dotted (a b c d : UInt8) : List Char :=
  Text.numeral a.toNat ++ '.' :: Text.numeral b.toNat ++ '.' :: Text.numeral c.toNat ++ '.' :: Text.numeral d.toNat

def joined : List UInt16 → List Char
  | [] => []
  | [group] => Nat.toDigits 16 group.toNat
  | group :: rest => Nat.toDigits 16 group.toNat ++ ':' :: joined rest

def zerosAt (groups : List UInt16) (place : Nat) : Nat := ((groups.drop place).takeWhile (· == 0)).length

/-- The place of the longest run of zero groups, the first of several. -/
def longestZeros (groups : List UInt16) : Nat :=
  (List.range groups.length).foldl
    (fun best place => if zerosAt groups best < zerosAt groups place then place else best) 0

/-- Groups, with the longest run of zeros left out. -/
def compressed (groups : List UInt16) : List Char :=
  let start := longestZeros groups
  let size := zerosAt groups start
  if 1 < size then joined (groups.take start) ++ ':' :: ':' :: joined (groups.drop (start + size)) else joined groups

def upper (group : UInt16) : UInt8 := UInt8.ofNat (group.toNat / 256)

def lower (group : UInt16) : UInt8 := UInt8.ofNat (group.toNat % 256)

def groupsText : List UInt16 → List Char
  | [0, 0, 0, 0, 0, 0xffff, g, h] => "::ffff:".toList ++ dotted (upper g) (lower g) (upper h) (lower h)
  | groups => compressed groups

def zoneText (zone : UInt32) : List Char := if zone = 0 then [] else '%' :: Text.numeral zone.toNat

def text : Address → List Char
  | .v4 a b c d port => dotted a b c d ++ ':' :: Text.numeral port.toNat
  | .v6 groups zone port =>
    '[' :: groupsText groups.list ++ zoneText zone ++ ']' :: ':' :: Text.numeral port.toNat

/-! ## Reading -/

def after? (c : Char) : List Char → Option (List Char)
  | [] => none
  | d :: rest => if d = c then some rest else none

/-- How a number is written: its base, the most digits, whether zeros may lead, and the greatest number. -/
structure Numeral where
  base : Nat
  digits : Option Nat
  zeros : Bool
  most : Nat

def Numeral.octet : Numeral := ⟨10, some 3, false, 255⟩

def Numeral.group : Numeral := ⟨16, some 4, true, 65535⟩

def Numeral.port : Numeral := ⟨10, none, true, 65535⟩

def Numeral.zone : Numeral := ⟨10, none, true, 4294967295⟩

def Numeral.admits (kind : Numeral) (digits : List Char) : Bool :=
  let fits := match kind.digits with
    | some most => digits.length ≤ most
    | none => true
  !digits.isEmpty && fits && (kind.zeros || digits.head? != some '0' || digits.length == 1) &&
    Text.valueIn kind.base digits ≤ kind.most

def Numeral.read? (kind : Numeral) (text : List Char) : Option (Nat × List Char) :=
  let digits := text.takeWhile (Text.isDigitIn kind.base)
  if kind.admits digits then some (Text.valueIn kind.base digits, text.dropWhile (Text.isDigitIn kind.base)) else none

def octets? (text : List Char) : Option ((UInt8 × UInt8 × UInt8 × UInt8) × List Char) := do
  let (a, rest) ← Numeral.octet.read? text
  let (b, rest) ← Numeral.octet.read? (← after? '.' rest)
  let (c, rest) ← Numeral.octet.read? (← after? '.' rest)
  let (d, rest) ← Numeral.octet.read? (← after? '.' rest)
  return ((UInt8.ofNat a, UInt8.ofNat b, UInt8.ofNat c, UInt8.ofNat d), rest)

def groupOf (upper lower : UInt8) : UInt16 := UInt16.ofNat (256 * upper.toNat + lower.toNat)

/-- What `read` reads, behind a colon unless it is the first. -/
def separated {α : Type} (first : Bool) (read : List Char → Option (α × List Char)) (text : List Char) :
    Option (α × List Char) :=
  if first then read text else (after? ':' text).bind read

/-- Up to so many groups, whether decimal numbers end them, and what follows them. -/
def groupsFrom : Nat → Bool → List Char → List UInt16 × Bool × List Char
  | 0, _, text => ([], false, text)
  | n + 1, first, text =>
    -- decimal numbers take the place of two groups
    match if n = 0 then none else separated first octets? text with
    | some ((a, b, c, d), rest) => ([groupOf a b, groupOf c d], true, rest)
    | none =>
      match separated first Numeral.group.read? text with
      | none => ([], false, text)
      | some (group, rest) =>
        let (groups, decimal, rest) := groupsFrom n false rest
        (UInt16.ofNat group :: groups, decimal, rest)

/-- The groups at the front of a text, with the missing ones filled in. -/
def groups? (text : List Char) : Option (List UInt16 × List Char) :=
  let (head, decimal, rest) := groupsFrom 8 true text
  if head.length = 8 then some (head, rest)
  else if decimal then none
  else do
    let rest ← after? ':' (← after? ':' rest)
    let (tail, _, rest) := groupsFrom (7 - head.length) true rest
    return (head ++ List.replicate (8 - head.length - tail.length) 0 ++ tail, rest)

/-- A port behind a colon, with nothing after it. -/
def port? (text : List Char) : Option UInt16 := do
  let (port, rest) ← Numeral.port.read? (← after? ':' text)
  if rest.isEmpty then some (UInt16.ofNat port) else none

/-- A zone, zero if there is none. -/
def zone? (text : List Char) : UInt32 × List Char :=
  match (after? '%' text).bind Numeral.zone.read? with
  | some (zone, rest) => (UInt32.ofNat zone, rest)
  | none => (0, text)

def v4? (text : List Char) : Option Address := do
  let ((a, b, c, d), rest) ← octets? text
  return .v4 a b c d (← port? rest)

def v6? (text : List Char) : Option Address := do
  let (list, rest) ← groups? (← after? '[' text)
  let (zone, rest) := zone? rest
  let port ← port? (← after? ']' rest)
  if h : list.length = 8 then some (.v6 ⟨list, h⟩ zone port) else none

def ofText? (text : List Char) : Option Address := (v4? text).orElse fun _ => v6? text

end Address

end Rulebook

import Devclego.Foundation.CText

/-!
# MAC addresses as text

`mac_pton` and `mac_ntop` of `etc_utils.c`. Their pointers are the buffers from there
on, which do not overlap. A `char_t` is a signed byte, so that an argument of
`sprintf` is extended with its sign; `mac_pton` reads unsigned bytes.
-/
namespace Devclego.Macs

open Foundation

/-- What `mac_pton` takes for the value of a digit, in `int`. -/
def digitValue (c : Byte) : BitVec 32 :=
  if ascii 'A' ≤ c ∧ c ≤ ascii 'F' then c.setWidth 32 - (ascii 'A').setWidth 32 + 10
  else c.setWidth 32 - (ascii '0').setWidth 32

/-- `*d` after the two assignments of a round. -/
def groupByte (c c' : Byte) : Byte :=
  let d : Byte := (digitValue (toupper c) <<< 4).setWidth 8
  (d.setWidth 32 ||| digitValue (toupper c')).setWidth 8

/-- The loop, whose own condition `p<p+slen` always holds. -/
def ptonLoop : List Byte → List Byte → Option (List Byte)
  | c :: c' :: separator :: p, _ :: d =>
    if separator = ascii ':' ∨ separator = ascii '-' then (ptonLoop p d).map (groupByte c c' :: ·)
    else some (groupByte c c' :: d)
  | _, _ => none

def macPton (src dst : List Byte) : Option (List Byte) := do
  let dst ← clearBytes 6 dst
  let slen ← strlen src
  if slen ≠ 17 then some dst else ptonLoop src dst

/-- `%02X` of a `char_t`. -/
def printByte (b : Byte) : List Byte := printHex (b.signExtend 32)

/-- The bytes in hexadecimal with colons between them. -/
def printBytes (bytes : List Byte) : List Byte := [ascii ':'].intercalate (bytes.map printByte)

def macNtop (src dst : List Byte) : Option (List Byte) :=
  match src with
  | b₀ :: b₁ :: b₂ :: b₃ :: b₄ :: b₅ :: _ => putString (printBytes [b₀, b₁, b₂, b₃, b₄, b₅]) dst
  | _ => none

end Devclego.Macs

import Mathlib.Data.List.Basic
import Mathlib.Algebra.Group.Nat.Defs

/-!
# Text in byte buffers

A buffer is what is readable from a pointer on; an access behind its end faults. A
string ends before its first zero byte. The functions are those of the C library, in
the C locale.
-/
namespace Devclego.Foundation

abbrev Byte := BitVec 8

def ascii (c : Char) : Byte := BitVec.ofNat 8 c.toNat

/-- The string at the start of a buffer. -/
def cString : List Byte → Option (List Byte)
  | [] => none
  | c :: rest => if c = 0 then some [] else (cString rest).map (c :: ·)

def strlen (s : List Byte) : Option Nat := (cString s).map List.length

/-- A string and its terminator are stored at the start of a buffer. -/
def putString (s buffer : List Byte) : Option (List Byte) :=
  if s.length < buffer.length then some (s ++ 0 :: buffer.drop (s.length + 1)) else none

/-- `memset(buffer, 0, n)` -/
def clearBytes (n : Nat) (buffer : List Byte) : Option (List Byte) :=
  if n ≤ buffer.length then some (List.replicate n 0 ++ buffer.drop n) else none

def toupper (c : Byte) : Byte := if ascii 'a' ≤ c ∧ c ≤ ascii 'z' then c - 0x20 else c

/-- The digit characters of `%X`. -/
def hexChar (n : Nat) : Byte := BitVec.ofNat 8 (if n < 10 then 0x30 + n else 0x37 + n)

/-- `%02X`: no leading zeros, but at least two digits. -/
def printHex (v : BitVec 32) : List Byte :=
  let digits := ((List.range 8).reverse.map fun i => v.toNat / 16 ^ i % 16).dropWhile (· == 0)
  (List.replicate (2 - digits.length) 0 ++ digits).map hexChar

def IsHexDigit (c : Byte) : Prop :=
  ascii '0' ≤ c ∧ c ≤ ascii '9' ∨ ascii 'A' ≤ c ∧ c ≤ ascii 'F' ∨ ascii 'a' ≤ c ∧ c ≤ ascii 'f'

instance (c : Byte) : Decidable (IsHexDigit c) := inferInstanceAs (Decidable (_ ∨ _))

theorem cString_append {s : List Byte} (h : ∀ c ∈ s, c ≠ 0) (rest : List Byte) :
    cString (s ++ 0 :: rest) = some s := by
  induction s with
  | nil => rfl
  | cons c s ih =>
    rw [List.cons_append, cString, if_neg (h c (List.mem_cons_self ..)),
      ih fun d hd => h d (List.mem_cons_of_mem c hd)]
    rfl

theorem strlen_append {s : List Byte} (h : ∀ c ∈ s, c ≠ 0) (rest : List Byte) :
    strlen (s ++ 0 :: rest) = some s.length := by
  rw [strlen, cString_append h]
  rfl

theorem clearBytes_eq {n : Nat} {buffer : List Byte} (h : n ≤ buffer.length) :
    clearBytes n buffer = some (List.replicate n 0 ++ buffer.drop n) := if_pos h

theorem putString_eq {s buffer : List Byte} (h : s.length < buffer.length) :
    putString s buffer = some (s ++ 0 :: buffer.drop (s.length + 1)) := if_pos h

theorem putString_cases {s buffer buffer' : List Byte} (h : putString s buffer = some buffer') :
    s.length < buffer.length ∧ buffer' = s ++ 0 :: buffer.drop (s.length + 1) := by
  rw [putString] at h
  split at h
  · exact ⟨‹_›, (Option.some.inj h).symm⟩
  · cases h

theorem printHex_ne_zero (v : BitVec 32) : ∀ c ∈ printHex v, c ≠ 0 := by
  have hchar : ∀ n, n < 16 → hexChar n ≠ 0 := by decide
  intro c hc
  obtain ⟨n, hn, rfl⟩ := List.mem_map.mp hc
  apply hchar
  rcases List.mem_append.mp hn with hzero | hdigit
  · rw [List.eq_of_mem_replicate hzero]
    decide
  · obtain ⟨i, -, rfl⟩ := List.mem_map.mp ((List.dropWhile_sublist _).subset hdigit)
    exact Nat.mod_lt _ (by decide)

/-- A digit of either case is the character of its value. -/
theorem IsHexDigit.value {c : Byte} (h : IsHexDigit c) : ∃ n, n < 16 ∧ toupper c = hexChar n := by
  have hall : ∀ c : Byte, IsHexDigit c → ∃ n, n < 16 ∧ toupper c = hexChar n := by decide +kernel
  exact hall c h

end Devclego.Foundation

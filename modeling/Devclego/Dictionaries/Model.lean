import Devclego.Foundation.CText
import Devclego.Foundation.Memory

/-!
# Dictionaries of strings

`dictionary_new`, `dictionary_set`, `dictionary_get`, `dictionary_unset` and
`dictionary_del` of `etc_dict.c`. The keys and values are strings in blocks of their
own, behind the pointers of two arrays; a third array holds the hash of each key. The
strings that a caller passes are given by their contents. An allocation does not fail.
-/
namespace Devclego.Dictionaries

open Foundation

/-- What a string is made of, without its terminator. -/
abbrev Text := List Byte

abbrev Mem := Memory Text

structure Dictionary where
  n : Nat
  size : Nat
  val : List Ptr
  key : List Ptr
  hash : List (BitVec 32)
deriving DecidableEq, Repr

/-- `mem_double`: the array is followed by as many zeros. -/
def memDouble {α : Type} (zero : α) (array : List α) : List α :=
  array ++ List.replicate array.length zero

def xstrdup (mem : Mem) (s : Text) : Mem × Addr := mem.alloc s

/-- One round of the loop of `dictionary_hash`. A character is signed. -/
def hashRound (hash : BitVec 32) (c : Byte) : BitVec 32 :=
  let hash := hash + c.signExtend 32
  let hash := hash + hash <<< 10
  hash ^^^ (hash >>> 6)

def dictionaryHash (key : Text) : BitVec 32 :=
  let hash := key.foldl hashRound 0
  let hash := hash + hash <<< 3
  let hash := hash ^^^ (hash >>> 11)
  hash + hash <<< 15

def dictminsz : Nat := 128

def dictionaryNew (size : Nat) : Dictionary :=
  let size := if size < dictminsz then dictminsz else size
  { n := 0, size := size, val := List.replicate size none, key := List.replicate size none,
    hash := List.replicate size 0 }

/-- The search that `dictionary_get`, `dictionary_set` and `dictionary_unset` share,
from slot `i` on: the index at which it stops, if it finds the key. The number is
that of the slots left. -/
def findKey (d : Dictionary) (mem : Mem) (hash : BitVec 32) (key : Text) : Nat → Nat → Option (Option Nat)
  | 0, _ => some none
  | fuel + 1, i => do
    match ← d.key[i]? with
    | none => findKey d mem hash key fuel (i + 1)
    | some a =>
      if hash = (← d.hash[i]?) then
        if key = (← mem.read a) then some (some i) else findKey d mem hash key fuel (i + 1)
      else findKey d mem hash key fuel (i + 1)

/-- The pointer that is stored for the key, or `none` for the `def` of the caller. -/
def dictionaryGet (d : Dictionary) (mem : Mem) (key : Text) : Option (Option Ptr) := do
  match ← findKey d mem (dictionaryHash key) key d.size 0 with
  | some i => (d.val[i]?).map some
  | none => some none

/-- `free` of a pointer that may be null. -/
def freePtr (mem : Mem) : Ptr → Option Mem
  | none => some mem
  | some a => mem.free a

/-- `val ? xstrdup(val) : NULL` -/
def dupVal (mem : Mem) : Option Text → Mem × Ptr
  | none => (mem, none)
  | some s => let (mem, a) := xstrdup mem s; (mem, some a)

/-- The value of a key that was found. -/
def replaceVal (d : Dictionary) (mem : Mem) (i : Nat) (val : Option Text) : Option (Dictionary × Mem) := do
  let mem ← freePtr mem (← d.val[i]?)
  let (mem, p) := dupVal mem val
  some ({ d with val := d.val.set i p }, mem)

def growIfFull (d : Dictionary) : Dictionary :=
  if d.n = d.size then
    { d with val := memDouble none d.val, key := memDouble none d.key, hash := memDouble 0 d.hash,
             size := d.size * 2 }
  else d

/-- The loop that looks for an empty slot and wraps around, for so many rounds. -/
def emptySlot (d : Dictionary) : Nat → Nat → Option Nat
  | 0, _ => none
  | fuel + 1, i => do
    match ← d.key[i]? with
    | none => some i
    | some _ => emptySlot d fuel (if i + 1 = d.size then 0 else i + 1)

def storeKey (d : Dictionary) (mem : Mem) (hash : BitVec 32) (key : Text) (val : Option Text) :
    Option (Dictionary × Mem) := do
  let i ← emptySlot d d.size d.n
  let (mem, k) := xstrdup mem key
  let (mem, p) := dupVal mem val
  some ({ d with key := d.key.set i (some k), val := d.val.set i p, hash := d.hash.set i hash, n := d.n + 1 }, mem)

def dictionarySet (d : Dictionary) (mem : Mem) (key : Option Text) (val : Option Text) :
    Option (Dictionary × Mem × Int) :=
  match key with
  | none => some (d, mem, -1)
  | some key => do
    let hash := dictionaryHash key
    let found ← if 0 < d.n then findKey d mem hash key d.size 0 else some none
    let (d, mem) ← match found with
      | some i => replaceVal d mem i val
      | none => storeKey (growIfFull d) mem hash key val
    some (d, mem, 0)

def dictionaryUnset (d : Dictionary) (mem : Mem) (key : Option Text) : Option (Dictionary × Mem) :=
  match key with
  | none => some (d, mem)
  | some key => do
    match ← findKey d mem (dictionaryHash key) key d.size 0 with
    | none => some (d, mem)
    | some i =>
      let mem ← freePtr mem (← d.key[i]?)
      let mem ← freePtr mem (← d.val[i]?)
      some ({ d with key := d.key.set i none, val := d.val.set i none, hash := d.hash.set i 0, n := d.n - 1 }, mem)

/-- The loop of `dictionary_del` from slot `i` on. The arrays and the record go after it. -/
def delLoop (d : Dictionary) : Nat → Nat → Mem → Option Mem
  | 0, _, mem => some mem
  | fuel + 1, i, mem => do
    let mem ← freePtr mem (← d.key[i]?)
    let mem ← freePtr mem (← d.val[i]?)
    delLoop d fuel (i + 1) mem

def dictionaryDel (d : Dictionary) (mem : Mem) : Option Mem := delLoop d d.size 0 mem

end Devclego.Dictionaries

import Mathlib.Data.Nat.Digits.Lemmas
import Mathlib.Logic.Equiv.Fin.Rotate
import Mathlib.Logic.Equiv.Defs
import Devclego.Foundation.CText

/-!
# Byte orders

A number of `n` bytes has the most significant of them first. A machine may store it
with its bytes in another order, which is a permutation of their places.
-/
namespace Devclego.Foundation

/-- Place `i` holds the byte with the number `order i`, counted from the most significant one. -/
abbrev ByteOrder (n : Nat) := Equiv.Perm (Fin n)

def bigOrder (n : Nat) : ByteOrder n := Equiv.refl (Fin n)

def littleOrder (n : Nat) : ByteOrder n := Fin.revPerm

variable {n : Nat} {bytes : List Byte} {order order' : ByteOrder n}

/-- The bytes of a number, the most significant one first. -/
def bigEndian (n v : Nat) : List Byte := ((Nat.digitsAppend 256 n v).map (BitVec.ofNat 8)).reverse

def ofBigEndian (bytes : List Byte) : Nat := Nat.ofDigits 256 (bytes.reverse.map BitVec.toNat)

def permute (order : ByteOrder n) (bytes : List Byte) : List Byte := List.ofFn fun i => bytes.getD (order i) 0

def toBytes (order : ByteOrder n) (v : BitVec (8 * n)) : List Byte := permute order (bigEndian n v.toNat)

def ofBytes (order : ByteOrder n) (bytes : List Byte) : BitVec (8 * n) :=
  BitVec.ofNat (8 * n) (ofBigEndian (permute order.symm bytes))

/-! ## The most significant byte first -/

theorem length_bigEndian {v : Nat} (h : v < 256 ^ n) : (bigEndian n v).length = n := by
  rw [bigEndian, List.length_reverse, List.length_map, Nat.length_digitsAppend (by decide) n h]

theorem ofBigEndian_bigEndian {v : Nat} (h : v < 256 ^ n) : ofBigEndian (bigEndian n v) = v := by
  have hsmall : ∀ d ∈ Nat.digitsAppend 256 n v, (BitVec.toNat ∘ BitVec.ofNat 8) d = d := by
    intro d hd
    exact Nat.mod_eq_of_lt (Nat.lt_of_mem_digitsAppend (by decide) n d hd)
  rw [ofBigEndian, bigEndian, List.reverse_reverse, List.map_map, List.map_congr_left hsmall, List.map_id']
  exact (Nat.setInvOn_digitsAppend_ofDigits (by decide) n).2 h

theorem toNat_bytes_lt (bytes : List Byte) : ∀ d ∈ bytes.reverse.map BitVec.toNat, d < 256 := by
  intro d hd
  obtain ⟨c, -, rfl⟩ := List.mem_map.mp hd
  exact c.isLt

theorem ofBigEndian_lt (bytes : List Byte) : ofBigEndian bytes < 256 ^ bytes.length := by
  have hlt := Nat.ofDigits_lt_base_pow_length (by decide) (toNat_bytes_lt bytes)
  rw [List.length_map, List.length_reverse] at hlt
  exact hlt

theorem bigEndian_ofBigEndian (hlen : bytes.length = n) : bigEndian n (ofBigEndian bytes) = bytes := by
  have hinv := (Nat.setInvOn_digitsAppend_ofDigits (by decide) n).1
    (show bytes.reverse.map BitVec.toNat ∈ {l : List Nat | l.length = n ∧ ∀ d ∈ l, d < 256} from
      ⟨by rw [List.length_map, List.length_reverse, hlen], toNat_bytes_lt bytes⟩)
  have hback : ∀ c ∈ bytes.reverse, (BitVec.ofNat 8 ∘ BitVec.toNat) c = c := by
    intro c _
    exact (BitVec.ofNat_toNat 8 c).trans (BitVec.setWidth_eq c)
  rw [bigEndian, ofBigEndian, hinv, List.map_map, List.map_congr_left hback, List.map_id', List.reverse_reverse]

/-! ## Other orders -/

theorem length_permute (order : ByteOrder n) (bytes : List Byte) : (permute order bytes).length = n :=
  List.length_ofFn

theorem getElem?_permute (order : ByteOrder n) (bytes : List Byte) (i : Fin n) :
    (permute order bytes)[(i : Nat)]? = some (bytes.getD (order i) 0) := by
  rw [permute, List.getElem?_ofFn, dif_pos i.isLt]

theorem getD_permute (order : ByteOrder n) (bytes : List Byte) (i : Fin n) :
    (permute order bytes).getD i 0 = bytes.getD (order i) 0 := by
  rw [List.getD_eq_getElem?_getD, getElem?_permute]
  rfl

theorem permute_permute (order order' : ByteOrder n) (bytes : List Byte) :
    permute order (permute order' bytes) = permute (order.trans order') bytes :=
  congrArg List.ofFn (funext fun i => getD_permute order' bytes (order i))

theorem permute_big (hlen : bytes.length = n) : permute (bigOrder n) bytes = bytes := by
  apply List.ext_getElem?
  intro i
  by_cases hi : i < n
  · have hget := getElem?_permute (bigOrder n) bytes ⟨i, hi⟩
    have hsome : bytes[i]? = some bytes[i] := List.getElem?_eq_getElem (hlen ▸ hi)
    rw [List.getD_eq_getElem?_getD] at hget
    change (permute _ _)[i]? = some (bytes[i]?.getD 0) at hget
    rw [hget, hsome]
    rfl
  · rw [List.getElem?_eq_none, List.getElem?_eq_none]
    · rw [hlen]
      exact Nat.not_lt.mp hi
    · rw [length_permute]
      exact Nat.not_lt.mp hi

theorem permute_little (hlen : bytes.length = n) : permute (littleOrder n) bytes = bytes.reverse := by
  apply List.ext_getElem?
  intro i
  by_cases hi : i < n
  · have hget := getElem?_permute (littleOrder n) bytes ⟨i, hi⟩
    rw [List.getD_eq_getElem?_getD] at hget
    change (permute _ _)[i]? = some (bytes[n - (i + 1)]?.getD 0) at hget
    rw [hget, List.getElem?_reverse (hlen ▸ hi), hlen, show n - 1 - i = n - (i + 1) by omega,
      List.getElem?_eq_getElem (show n - (i + 1) < bytes.length by omega)]
    rfl
  · rw [List.getElem?_eq_none, List.getElem?_eq_none]
    · rw [List.length_reverse, hlen]
      exact Nat.not_lt.mp hi
    · rw [length_permute]
      exact Nat.not_lt.mp hi

theorem permute_symm (hlen : bytes.length = n) : permute order.symm (permute order bytes) = bytes := by
  rw [permute_permute, Equiv.symm_trans_self]
  exact permute_big hlen

theorem permute_of_symm (hlen : bytes.length = n) : permute order (permute order.symm bytes) = bytes := by
  rw [permute_permute, Equiv.self_trans_symm]
  exact permute_big hlen

/-! ## Numbers in memory -/

theorem toNat_lt (v : BitVec (8 * n)) : v.toNat < 256 ^ n := by
  have hlt := v.isLt
  rwa [Nat.pow_mul] at hlt

theorem length_toBytes (order : ByteOrder n) (v : BitVec (8 * n)) : (toBytes order v).length = n :=
  length_permute order _

theorem ofBytes_toBytes (order : ByteOrder n) (v : BitVec (8 * n)) : ofBytes order (toBytes order v) = v := by
  have hlt := toNat_lt v
  rw [ofBytes, toBytes, permute_symm (length_bigEndian hlt), ofBigEndian_bigEndian hlt, BitVec.ofNat_toNat,
    BitVec.setWidth_eq]

theorem toBytes_ofBytes (hlen : bytes.length = n) : toBytes order (ofBytes order bytes) = bytes := by
  have hlt := ofBigEndian_lt (permute order.symm bytes)
  rw [length_permute] at hlt
  rw [toBytes, ofBytes, BitVec.toNat_ofNat, Nat.pow_mul, Nat.mod_eq_of_lt hlt,
    bigEndian_ofBigEndian (length_permute _ _), permute_of_symm hlen]

theorem toBytes_big (v : BitVec (8 * n)) : toBytes (bigOrder n) v = bigEndian n v.toNat :=
  permute_big (length_bigEndian (toNat_lt v))

theorem toBytes_little (v : BitVec (8 * n)) : toBytes (littleOrder n) v = (toBytes (bigOrder n) v).reverse := by
  rw [toBytes_big]
  exact permute_little (length_bigEndian (toNat_lt v))

end Devclego.Foundation

import Mathlib.Data.Fintype.Perm
import Devclego.Foundation.ByteOrder
import Devclego.Foundation.Assigning
import Devclego.Foundation.Strtol

/-!
# Objects in network byte order

`etc_endian.c`. A machine is the order of the bytes of its words, which is one of 24;
only two of them are converted.
-/
namespace Devclego.Utils

open Foundation

inductive EndianTypes
  | unknown
  | big
  | little
  | bigWord
  | littleWord
deriving DecidableEq, Repr

def getSystemEndianness (word : ByteOrder 4) : EndianTypes :=
  let value := ofBytes word [0x00, 0x01, 0x02, 0x03]
  if value = 0x00010203 then .big
  else if value = 0x03020100 then .little
  else if value = 0x02030001 then .bigWord
  else if value = 0x01000302 then .littleWord
  else .unknown

def bytesAt (a n : Nat) (mem : List Byte) : List Byte := (mem.drop a).take n

/-- It is defined for objects that do not overlap. -/
def memcpy (dst src : Nat) (size : Int) (mem : List Byte) : Option (List Byte) :=
  let n := size.toNat
  if 0 ≤ size ∧ src + n ≤ mem.length ∧ dst + n ≤ mem.length ∧ (dst + n ≤ src ∨ src + n ≤ dst) then
    some (overwrite dst (bytesAt src n mem) mem)
  else none

/-- `i` goes up from 0 and `j` down from `size - 1`, which must not overflow. -/
def setBytesForSending (word : ByteOrder 4) (dst src : Nat) (size : Int) (mem : List Byte) : Option (Bool × List Byte) :=
  match getSystemEndianness word with
  | .bigWord | .littleWord | .unknown => some (false, mem)
  | .big => (memcpy dst src size mem).map (true, ·)
  | .little =>
    if size - 1 < intMin then none
    else
      let n := size.toNat
      (assignEach (fun i => dst + (n - 1 - i)) (fun i => src + i) n 0 mem).map (true, ·)

/-- `j` goes up from 0 and `i` down from `size - 1`. -/
def setBytesForReceiving (word : ByteOrder 4) (dst src : Nat) (size : Int) (mem : List Byte) : Option (Bool × List Byte) :=
  match getSystemEndianness word with
  | .bigWord | .littleWord | .unknown => some (false, mem)
  | .big => (memcpy dst src size mem).map (true, ·)
  | .little =>
    if size - 1 < intMin then none
    else
      let n := size.toNat
      (assignEach (fun j => dst + j) (fun j => src + (n - 1 - j)) n 0 mem).map (true, ·)

/-! ## Machines -/

/-- The order of an object of `n` bytes, where it is known from the words. -/
def objectOrder (word : ByteOrder 4) (n : Nat) : Option (ByteOrder n) :=
  if word = bigOrder 4 then some (bigOrder n) else if word = littleOrder 4 then some (littleOrder n) else none

theorem getSystemEndianness_big_iff (word : ByteOrder 4) : getSystemEndianness word = .big ↔ word = bigOrder 4 := by
  revert word
  decide +kernel

theorem getSystemEndianness_little_iff (word : ByteOrder 4) :
    getSystemEndianness word = .little ↔ word = littleOrder 4 := by
  revert word
  decide +kernel

variable {word word' : ByteOrder 4} {dst src n m : Nat} {mem mem' : List Byte}

theorem length_bytesAt (h : src + n ≤ mem.length) : (bytesAt src n mem).length = n := by
  rw [bytesAt, List.length_take, List.length_drop]
  omega

theorem getElem?_bytesAt {i : Nat} (hi : i < n) : (bytesAt src n mem)[i]? = mem[src + i]? := by
  rw [bytesAt, List.getElem?_take_of_lt hi, List.getElem?_drop]

theorem bytesAt_overwrite {bytes : List Byte} (hlen : bytes.length = n) (h : dst + n ≤ mem.length) :
    bytesAt dst n (overwrite dst bytes mem) = bytes := by
  apply List.ext_getElem?
  intro i
  by_cases hi : i < n
  · rw [getElem?_bytesAt hi, getElem?_overwrite_in (hlen ▸ h) (hlen ▸ hi)]
  · rw [List.getElem?_eq_none, List.getElem?_eq_none]
    · omega
    · rw [length_bytesAt (by rw [length_overwrite (hlen ▸ h)]; exact h)]
      omega

/-! ## The two loops -/

theorem sending_assignable (hdst : dst + n ≤ m) (hsrc : src + n ≤ m) :
    Assignable (fun i => dst + (n - 1 - i)) (fun i => src + i) n m := by
  constructor
  all_goals
    intros
    omega

theorem receiving_assignable (hdst : dst + n ≤ m) (hsrc : src + n ≤ m) :
    Assignable (fun j => dst + j) (fun j => src + (n - 1 - j)) n m := by
  constructor
  all_goals
    intros
    omega

/-- The objects have at most one byte in common. -/
theorem sending_unread_iff :
    Unread (fun i => dst + (n - 1 - i)) (fun i => src + i) n ↔ dst + n ≤ src + 1 ∨ src + n ≤ dst + 1 := by
  constructor
  · intro h
    by_contra hno
    -- two rounds in the middle meet
    refine h (dst + n - 1 - src - (dst + n - 2 - src) / 2) (by omega) ((dst + n - 2 - src) / 2) (by omega) ?_
    dsimp only
    omega
  · intro h i hi j hj he
    dsimp only at he
    omega

theorem receiving_unread_iff :
    Unread (fun j => dst + j) (fun j => src + (n - 1 - j)) n ↔ dst + n ≤ src + 1 ∨ src + n ≤ dst + 1 := by
  constructor
  · intro h
    by_contra hno
    refine h (src + n - 1 - dst - (src + n - 2 - dst) / 2) (by omega) ((src + n - 2 - dst) / 2) (by omega) ?_
    dsimp only
    omega
  · intro h i hi j hj he
    dsimp only at he
    omega

theorem sending_assigned (hdst : dst + n ≤ mem.length) (hsrc : src + n ≤ mem.length) :
    Assigned (fun i => dst + (n - 1 - i)) (fun i => src + i) 0 n mem (overwrite dst (bytesAt src n mem).reverse mem) := by
  have hlen : (bytesAt src n mem).reverse.length = n := by rw [List.length_reverse, length_bytesAt hsrc]
  have hfits : dst + (bytesAt src n mem).reverse.length ≤ mem.length := by rwa [hlen]
  refine ⟨length_overwrite hfits, ?_, ?_⟩
  · intro i _ hi
    rw [getElem?_overwrite_in hfits (by omega), List.getElem?_reverse (by rw [length_bytesAt hsrc]; omega),
      length_bytesAt hsrc, show n - 1 - (n - 1 - i) = i by omega, getElem?_bytesAt (by omega)]
  · intro p hp
    apply getElem?_overwrite_out hfits
    rw [hlen]
    by_contra hno
    exact hp (n - 1 - (p - dst)) (Nat.zero_le _) (by omega) (by omega)

theorem receiving_assigned (hdst : dst + n ≤ mem.length) (hsrc : src + n ≤ mem.length) :
    Assigned (fun j => dst + j) (fun j => src + (n - 1 - j)) 0 n mem (overwrite dst (bytesAt src n mem).reverse mem) := by
  have hlen : (bytesAt src n mem).reverse.length = n := by rw [List.length_reverse, length_bytesAt hsrc]
  have hfits : dst + (bytesAt src n mem).reverse.length ≤ mem.length := by rwa [hlen]
  refine ⟨length_overwrite hfits, ?_, ?_⟩
  · intro j _ hj
    rw [getElem?_overwrite_in hfits (by omega), List.getElem?_reverse (by rw [length_bytesAt hsrc]; omega),
      length_bytesAt hsrc, getElem?_bytesAt (by omega)]
  · intro p hp
    apply getElem?_overwrite_out hfits
    rw [hlen]
    by_contra hno
    exact hp (p - dst) (Nat.zero_le _) (by omega) (by omega)

/-! ## What arrives -/

/-- Both objects are in memory, and they do not overlap. -/
structure Apart (dst src n : Nat) (mem : List Byte) : Prop where
  destination : dst + n ≤ mem.length
  source : src + n ≤ mem.length
  apart : dst + n ≤ src ∨ src + n ≤ dst

theorem Apart.shared (h : Apart dst src n mem) : dst + n ≤ src + 1 ∨ src + n ≤ dst + 1 := by
  rcases h.apart with hbefore | hbehind
  · exact .inl (Nat.le_succ_of_le hbefore)
  · exact .inr (Nat.le_succ_of_le hbehind)

theorem memcpy_apart (h : Apart dst src n mem) : memcpy dst src n mem = some (overwrite dst (bytesAt src n mem) mem) := by
  unfold memcpy
  rw [Int.toNat_natCast, if_pos ⟨Int.natCast_nonneg n, h.source, h.destination, h.apart⟩]

theorem not_lt_intMin (n : Nat) : ¬ (n : Int) - 1 < intMin := by
  have hmin : intMin = -2147483648 := by decide
  rw [hmin]
  omega

theorem sending_big (dst src n : Nat) (mem : List Byte) :
    setBytesForSending (bigOrder 4) dst src n mem = (memcpy dst src n mem).map (true, ·) := by
  rw [setBytesForSending, (getSystemEndianness_big_iff _).mpr rfl]

theorem receiving_big (dst src n : Nat) (mem : List Byte) :
    setBytesForReceiving (bigOrder 4) dst src n mem = (memcpy dst src n mem).map (true, ·) := by
  rw [setBytesForReceiving, (getSystemEndianness_big_iff _).mpr rfl]

theorem sending_little (dst src n : Nat) (mem : List Byte) :
    setBytesForSending (littleOrder 4) dst src n mem =
      (assignEach (fun i => dst + (n - 1 - i)) (fun i => src + i) n 0 mem).map (true, ·) := by
  rw [setBytesForSending, (getSystemEndianness_little_iff _).mpr rfl]
  exact if_neg (not_lt_intMin n)

theorem receiving_little (dst src n : Nat) (mem : List Byte) :
    setBytesForReceiving (littleOrder 4) dst src n mem =
      (assignEach (fun j => dst + j) (fun j => src + (n - 1 - j)) n 0 mem).map (true, ·) := by
  rw [setBytesForReceiving, (getSystemEndianness_little_iff _).mpr rfl]
  exact if_neg (not_lt_intMin n)

theorem objectOrder_cases {order : ByteOrder n} (h : objectOrder word n = some order) :
    word = bigOrder 4 ∧ order = bigOrder n ∨ word = littleOrder 4 ∧ order = littleOrder n := by
  unfold objectOrder at h
  split at h
  · cases h
    exact .inl ⟨‹_›, rfl⟩
  · split at h
    · cases h
      exact .inr ⟨‹_›, rfl⟩
    · cases h

theorem refused (h : objectOrder word n = none) (dst src : Nat) (size : Int) (mem : List Byte) :
    setBytesForSending word dst src size mem = some (false, mem) ∧
    setBytesForReceiving word dst src size mem = some (false, mem) := by
  have hbig : getSystemEndianness word ≠ .big := by
    intro he
    rw [objectOrder, if_pos ((getSystemEndianness_big_iff word).mp he)] at h
    cases h
  have hlittle : getSystemEndianness word ≠ .little := by
    intro he
    have hword := (getSystemEndianness_little_iff word).mp he
    rw [objectOrder, if_neg (by rw [hword]; decide), if_pos hword] at h
    cases h
  unfold setBytesForSending setBytesForReceiving
  cases he : getSystemEndianness word with
  | big => exact absurd he hbig
  | little => exact absurd he hlittle
  | bigWord => exact ⟨rfl, rfl⟩
  | littleWord => exact ⟨rfl, rfl⟩
  | unknown => exact ⟨rfl, rfl⟩

theorem sending_spec {order : ByteOrder n} (horder : objectOrder word n = some order) (hapart : Apart dst src n mem)
    {v : BitVec (8 * n)} (hstored : bytesAt src n mem = toBytes order v) :
    setBytesForSending word dst src n mem = some (true, overwrite dst (toBytes (bigOrder n) v) mem) := by
  rcases objectOrder_cases horder with ⟨rfl, rfl⟩ | ⟨rfl, rfl⟩
  · rw [sending_big, memcpy_apart hapart, hstored]
    rfl
  · have hplaces := sending_assignable hapart.destination hapart.source
    obtain ⟨ys, hys, hassigned⟩ := assignEach_unread hplaces (sending_unread_iff.mpr hapart.shared)
      (Nat.le_of_eq (Nat.zero_add n)) rfl
    rw [sending_little, hys, hassigned.unique (sending_assigned hapart.destination hapart.source), hstored,
      toBytes_little, List.reverse_reverse]
    rfl

theorem receiving_spec {order : ByteOrder n} (horder : objectOrder word n = some order) (hapart : Apart dst src n mem)
    {v : BitVec (8 * n)} (hstored : bytesAt src n mem = toBytes (bigOrder n) v) :
    setBytesForReceiving word dst src n mem = some (true, overwrite dst (toBytes order v) mem) := by
  rcases objectOrder_cases horder with ⟨rfl, rfl⟩ | ⟨rfl, rfl⟩
  · rw [receiving_big, memcpy_apart hapart, hstored]
    rfl
  · have hplaces := receiving_assignable hapart.destination hapart.source
    obtain ⟨ys, hys, hassigned⟩ := assignEach_unread hplaces (receiving_unread_iff.mpr hapart.shared)
      (Nat.le_of_eq (Nat.zero_add n)) rfl
    rw [receiving_little, hys, hassigned.unique (receiving_assigned hapart.destination hapart.source), hstored,
      toBytes_little]
    rfl

/-- An object goes from one machine to another, or a machine refuses it and writes nothing. -/
theorem value_transferred {dst' src' : Nat} (v : BitVec (8 * n)) (hapart : Apart dst src n mem)
    (hapart' : Apart dst' src' n mem') :
    (objectOrder word n = none → setBytesForSending word dst src n mem = some (false, mem) ∧
      setBytesForReceiving word dst src n mem = some (false, mem)) ∧
    ∀ order, objectOrder word n = some order → bytesAt src n mem = toBytes order v →
      ∃ sent, setBytesForSending word dst src n mem = some (true, sent) ∧ bytesAt dst n sent = bigEndian n v.toNat ∧
        (∀ p, p < dst ∨ dst + n ≤ p → sent[p]? = mem[p]?) ∧
        ∀ order', objectOrder word' n = some order' → bytesAt src' n mem' = bytesAt dst n sent →
          ∃ received, setBytesForReceiving word' dst' src' n mem' = some (true, received) ∧
            bytesAt dst' n received = toBytes order' v ∧
            ∀ p, p < dst' ∨ dst' + n ≤ p → received[p]? = mem'[p]? := by
  refine ⟨fun hnone => refused hnone dst src n mem, ?_⟩
  intro order horder hstored
  have hlen : ∀ order : ByteOrder n, (toBytes order v).length = n := fun order => length_toBytes order v
  have hsent := bytesAt_overwrite (hlen (bigOrder n)) hapart.destination
  refine ⟨_, sending_spec horder hapart hstored, hsent.trans (toBytes_big v), ?_, ?_⟩
  · intro p hp
    exact getElem?_overwrite_out ((hlen _).symm ▸ hapart.destination) ((hlen _).symm ▸ hp)
  · intro order' horder' hcarried
    rw [hsent] at hcarried
    refine ⟨_, receiving_spec horder' hapart' hcarried, bytesAt_overwrite (hlen order') hapart'.destination, ?_⟩
    intro p hp
    exact getElem?_overwrite_out ((hlen _).symm ▸ hapart'.destination) ((hlen _).symm ▸ hp)

theorem short_transferred : ∃ sent, setBytesForSending (littleOrder 4) 2 0 2 [0x34, 0x12, 0, 0] = some (true, sent) ∧
    bytesAt 2 2 sent = [0x12, 0x34] ∧
    ∃ received, setBytesForReceiving (bigOrder 4) 0 2 2 [7, 7, 0x12, 0x34] = some (true, received) ∧
      bytesAt 0 2 received = [0x12, 0x34] := by
  have hall := @value_transferred (littleOrder 4) (bigOrder 4) 2 0 2 [0x34, 0x12, 0, 0] [7, 7, 0x12, 0x34] 0 2 0x1234
    ⟨by decide, by decide, by decide⟩ ⟨by decide, by decide, by decide⟩
  obtain ⟨sent, hsending, hnetwork, -, hreceive⟩ := hall.2 (littleOrder 2) rfl (by decide)
  have hbytes : bytesAt 2 2 sent = [0x12, 0x34] := hnetwork.trans (by decide)
  obtain ⟨received, hreceiving, hvalue, -⟩ := hreceive (bigOrder 2) rfl (Eq.trans (by decide) hbytes.symm)
  exact ⟨sent, hsending, hbytes, received, hreceiving, hvalue.trans (by decide)⟩

/-- A loop does what it should in every memory if it never reads too late, and only then. -/
theorem loop_iff_unread {target source : Nat → Nat} (hplaces : Assignable target source n m)
    (result : List Byte → List Byte) (hresult : ∀ mem, mem.length = m → Assigned target source 0 n mem (result mem)) :
    (∀ mem, mem.length = m → (assignEach target source n 0 mem).map (true, ·) = some (true, result mem)) ↔
      Unread target source n := by
  constructor
  · intro h
    apply unread_of_assigned (show (0 : Byte) ≠ 1 by decide) hplaces
    intro mem hlen
    obtain ⟨ys, hys, he⟩ := Option.map_eq_some_iff.mp (h mem hlen)
    cases he
    exact ⟨_, hys, hresult mem hlen⟩
  · intro hunread mem hlen
    obtain ⟨ys, hys, hassigned⟩ := assignEach_unread hplaces hunread (Nat.le_of_eq (Nat.zero_add n)) hlen
    rw [hys, hassigned.unique (hresult mem hlen)]
    rfl

/-- On a little machine the bytes arrive reversed whatever they are exactly when the
objects have at most one byte in common; in place this is at most one byte. -/
theorem reversed_iff (hdst : dst + n ≤ m) (hsrc : src + n ≤ m) :
    ((∀ mem, mem.length = m → setBytesForSending (littleOrder 4) dst src n mem =
        some (true, overwrite dst (bytesAt src n mem).reverse mem)) ↔ dst + n ≤ src + 1 ∨ src + n ≤ dst + 1) ∧
    ((∀ mem, mem.length = m → setBytesForReceiving (littleOrder 4) dst src n mem =
        some (true, overwrite dst (bytesAt src n mem).reverse mem)) ↔ dst + n ≤ src + 1 ∨ src + n ≤ dst + 1) := by
  let result := fun mem => overwrite dst (bytesAt src n mem).reverse mem
  have hsent := loop_iff_unread (sending_assignable hdst hsrc) result <| by
    rintro mem rfl
    exact sending_assigned hdst hsrc
  have hreceived := loop_iff_unread (receiving_assignable hdst hsrc) result <| by
    rintro mem rfl
    exact receiving_assigned hdst hsrc
  simp only [sending_little, receiving_little]
  exact ⟨hsent.trans sending_unread_iff, hreceived.trans receiving_unread_iff⟩

theorem reversed_with_one_byte_shared : setBytesForSending (littleOrder 4) 1 0 2 [1, 2, 3] = some (true, [1, 2, 1]) :=
  ((reversed_iff (m := 3) (by decide) (by decide)).1.mpr (by decide)) [1, 2, 3] rfl

/-- In place the second half of an object is lost. -/
example : setBytesForSending (littleOrder 4) 0 0 4 [1, 2, 3, 4] = some (true, [1, 2, 2, 1]) := by decide +kernel

end Devclego.Utils

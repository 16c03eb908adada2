import Devclego.Foundation.ByteOrder
import Devclego.Foundation.Strtol

/-!
# Words in network byte order

`bytes_hton`, `bytes_ntoh` and their copying forms, on machines with any order of the
bytes of a word. They go by four bytes as long as the index is below the length.
-/
namespace Devclego.Utils

open Foundation

abbrev Word := BitVec (8 * 4)

def htonl (word : ByteOrder 4) (hostlong : Word) : Word := ofBytes word (toBytes (bigOrder 4) hostlong)

def ntohl (word : ByteOrder 4) (netlong : Word) : Word := ofBytes (bigOrder 4) (toBytes word netlong)

/-- The loop in place, from an index on, which must not overflow. -/
def convertWords (word : ByteOrder 4) (convert : Word → Word) (length : Int) : Nat → List Byte → Option (List Byte)
  | index, b₀ :: b₁ :: b₂ :: b₃ :: bytes =>
    if (index : Int) < length then
      if intMax < index + 4 then none
      else
        (convertWords word convert length (index + 4) bytes).map
          (toBytes word (convert (ofBytes word [b₀, b₁, b₂, b₃])) ++ ·)
    else some (b₀ :: b₁ :: b₂ :: b₃ :: bytes)
  | index, bytes => if (index : Int) < length then none else some bytes

def bytesNtoh (word : ByteOrder 4) (bytes : List Byte) (length : Int) : Option (List Byte) :=
  convertWords word (ntohl word) length 0 bytes

def bytesHton (word : ByteOrder 4) (bytes : List Byte) (length : Int) : Option (List Byte) :=
  convertWords word (htonl word) length 0 bytes

/-- The loop from a source to a destination apart from it. -/
def copyWords (word : ByteOrder 4) (convert : Word → Word) (length : Int) :
    Nat → List Byte → List Byte → Option (List Byte)
  | index, b₀ :: b₁ :: b₂ :: b₃ :: src, d₀ :: d₁ :: d₂ :: d₃ :: dst =>
    if (index : Int) < length then
      if intMax < index + 4 then none
      else
        (copyWords word convert length (index + 4) src dst).map
          (toBytes word (convert (ofBytes word [b₀, b₁, b₂, b₃])) ++ ·)
    else some (d₀ :: d₁ :: d₂ :: d₃ :: dst)
  | index, _, dst => if (index : Int) < length then none else some dst

def cpyBytesNtoh (word : ByteOrder 4) (dst src : List Byte) (length : Int) : Option (List Byte) :=
  copyWords word (ntohl word) length 0 src dst

def cpyBytesHton (word : ByteOrder 4) (dst src : List Byte) (length : Int) : Option (List Byte) :=
  copyWords word (htonl word) length 0 src dst

/-! ## Rounds -/

/-- How often the loop runs from an index on: a last word is converted whole. -/
def rounds (length : Int) (index : Nat) : Nat := ((length - index + 3) / 4).toNat

/-- Words as a machine has them in memory. -/
def stored (word : ByteOrder 4) (words : List Word) : List Byte := words.flatMap (toBytes word)

variable {word word' : ByteOrder 4} {convert : Word → Word} {length : Int} {index n : Nat}
  {words : List Word} {bytes rest src dst : List Byte}

theorem rounds_step (h : (index : Int) < length) : rounds length index = rounds length (index + 4) + 1 := by
  unfold rounds
  omega

theorem rounds_done_iff : rounds length index = 0 ↔ ¬ (index : Int) < length := by
  unfold rounds
  omega

theorem length_stored (word : ByteOrder 4) (words : List Word) : (stored word words).length = 4 * words.length := by
  induction words with
  | nil => rfl
  | cons v words ih =>
    rw [stored, List.flatMap_cons, List.length_append, length_toBytes, List.length_cons]
    change 4 + (stored word words).length = _
    rw [ih, Nat.mul_succ, Nat.add_comm]

/-- Whatever is in memory is the words that a machine sees there. -/
theorem exists_words (word : ByteOrder 4) (n : Nat) (h : 4 * n ≤ bytes.length) :
    ∃ words : List Word, words.length = n ∧ bytes = stored word words ++ bytes.drop (4 * n) := by
  induction n generalizing bytes with
  | zero => exact ⟨[], rfl, rfl⟩
  | succ n ih =>
    match bytes, h with
    | b₀ :: b₁ :: b₂ :: b₃ :: bytes, h =>
      obtain ⟨words, hlen, hbytes⟩ := @ih bytes (by simp only [List.length_cons] at h; omega)
      have hfirst := @toBytes_ofBytes 4 [b₀, b₁, b₂, b₃] word rfl
      refine ⟨ofBytes word [b₀, b₁, b₂, b₃] :: words, congrArg _ hlen, ?_⟩
      rw [stored, List.flatMap_cons, hfirst]
      exact congrArg (fun bytes => b₀ :: b₁ :: b₂ :: b₃ :: bytes) hbytes
    | [], h | [_], h | [_, _], h | [_, _, _], h =>
      simp only [List.length_cons, List.length_nil] at h
      omega

theorem four_bytes (word : ByteOrder 4) (v : Word) : ∃ b₀ b₁ b₂ b₃, toBytes word v = [b₀, b₁, b₂, b₃] :=
  ⟨_, _, _, _, by rw [toBytes, permute, List.ofFn_succ, List.ofFn_succ, List.ofFn_succ, List.ofFn_succ, List.ofFn_zero]⟩

/-! ## The loops -/

/-- In place is like copying an array to itself. -/
theorem convertWords_eq_copyWords (word : ByteOrder 4) (convert : Word → Word) (length : Int) (index : Nat)
    (bytes : List Byte) : convertWords word convert length index bytes = copyWords word convert length index bytes bytes := by
  fun_induction convertWords word convert length index bytes with
  | case1 index b₀ b₁ b₂ b₃ bytes hlt hmax => rw [copyWords, if_pos hlt, if_pos hmax]
  | case2 index b₀ b₁ b₂ b₃ bytes hlt hmax ih => rw [copyWords, if_pos hlt, if_neg hmax, ih]
  | case3 index b₀ b₁ b₂ b₃ bytes hlt => rw [copyWords, if_neg hlt]
  | case4 index bytes hshort hlt =>
    rw [copyWords, if_pos hlt]
    exact fun b₀ b₁ b₂ b₃ src d₀ d₁ d₂ d₃ dst hsrc _ => hshort b₀ b₁ b₂ b₃ src hsrc
  | case5 index bytes hshort hlt =>
    rw [copyWords, if_neg hlt]
    exact fun b₀ b₁ b₂ b₃ src d₀ d₁ d₂ d₃ dst hsrc _ => hshort b₀ b₁ b₂ b₃ src hsrc

theorem copyWords_done (h : rounds length index = 0) (src dst : List Byte) :
    copyWords word convert length index src dst = some dst := by
  have hlt := rounds_done_iff.mp h
  unfold copyWords
  split <;> rw [if_neg hlt]

theorem copyWords_round (h : rounds length index = n + 1) (hmax : index + 4 ≤ intMax) (v : Word)
    (hdst : 4 ≤ dst.length) :
    copyWords word convert length index (toBytes word v ++ src) dst =
      (copyWords word convert length (index + 4) src (dst.drop 4)).map (toBytes word (convert v) ++ ·) := by
  have hlt : (index : Int) < length := by
    by_contra hno
    rw [rounds_done_iff.mpr hno] at h
    cases h
  have hread := ofBytes_toBytes word v
  obtain ⟨b₀, b₁, b₂, b₃, hbytes⟩ := four_bytes word v
  rw [hbytes] at hread ⊢
  match dst, hdst with
  | d₀ :: d₁ :: d₂ :: d₃ :: dst, _ =>
    change copyWords word convert length index (b₀ :: b₁ :: b₂ :: b₃ :: src) _ = _
    rw [copyWords, if_pos hlt, if_neg (Int.not_lt.mpr hmax), hread]
    rfl

/-- As many words as rounds are converted. -/
theorem copyWords_spec (words : List Word) (hrounds : rounds length index = words.length)
    (hdst : 4 * words.length ≤ dst.length) (hmax : (index : Int) + 4 * words.length ≤ intMax) (rest : List Byte) :
    copyWords word convert length index (stored word words ++ rest) dst =
      some (stored word (words.map convert) ++ dst.drop (4 * words.length)) := by
  induction words generalizing index dst with
  | nil => exact copyWords_done hrounds rest dst
  | cons v words ih =>
    rw [List.length_cons] at hrounds hdst hmax
    have hlt : (index : Int) < length := by
      by_contra hno
      rw [rounds_done_iff.mpr hno] at hrounds
      cases hrounds
    have hrest : rounds length (index + 4) = words.length := Nat.succ.inj ((rounds_step hlt).symm.trans hrounds)
    rw [stored, List.flatMap_cons, List.append_assoc, copyWords_round hrounds (by omega) v (by omega)]
    change (copyWords word convert length (index + 4) (stored word words ++ rest) (dst.drop 4)).map _ = _
    rw [ih hrest (by rw [List.length_drop]; omega) (by push_cast; omega), Option.map_some, List.drop_drop,
      ← List.append_assoc, List.length_cons, Nat.mul_succ, Nat.add_comm 4]
    rfl

/-- A round outside the arrays, or behind the largest index, faults. -/
theorem copyWords_faults (hrounds : rounds length index = n)
    (h : src.length < 4 * n ∨ dst.length < 4 * n ∨ n ≠ 0 ∧ intMax < (index : Int) + 4 * n) :
    copyWords word convert length index src dst = none := by
  induction n generalizing index src dst with
  | zero => omega
  | succ n ih =>
    have hlt : (index : Int) < length := by
      by_contra hno
      rw [rounds_done_iff.mpr hno] at hrounds
      cases hrounds
    have hrest : rounds length (index + 4) = n := Nat.succ.inj ((rounds_step hlt).symm.trans hrounds)
    unfold copyWords
    split
    · rw [if_pos hlt]
      split
      · rfl
      · rw [ih hrest (by simp only [List.length_cons] at h; push_cast; omega)]
        rfl
    · rw [if_pos hlt]

theorem copyWords_isSome_iff : (copyWords word convert length 0 src dst).isSome = true ↔
    4 * rounds length 0 ≤ src.length ∧ 4 * rounds length 0 ≤ dst.length ∧ (4 * rounds length 0 : Int) ≤ intMax := by
  have hmax : intMax = 2147483647 := by decide
  rw [hmax]
  constructor
  · intro hsome
    by_contra hno
    rw [copyWords_faults rfl (by omega)] at hsome
    cases hsome
  · rintro ⟨hsrc, hdst, hindex⟩
    obtain ⟨words, hlen, hwords⟩ := exists_words word _ hsrc
    rw [hwords, copyWords_spec words hlen.symm (hlen ▸ hdst) (by rw [hlen, hmax]; omega)]
    rfl

/-- Exactly when the functions stay inside their arrays: they round the length up to
whole words. -/
theorem conversions_in_bounds_iff (word : ByteOrder 4) (bytes src dst : List Byte) (length : Int) :
    ((bytesHton word bytes length).isSome = true ↔
      4 * rounds length 0 ≤ bytes.length ∧ (4 * rounds length 0 : Int) ≤ intMax) ∧
    ((bytesNtoh word bytes length).isSome = true ↔
      4 * rounds length 0 ≤ bytes.length ∧ (4 * rounds length 0 : Int) ≤ intMax) ∧
    ((cpyBytesHton word dst src length).isSome = true ↔
      4 * rounds length 0 ≤ src.length ∧ 4 * rounds length 0 ≤ dst.length ∧ (4 * rounds length 0 : Int) ≤ intMax) ∧
    ((cpyBytesNtoh word dst src length).isSome = true ↔
      4 * rounds length 0 ≤ src.length ∧ 4 * rounds length 0 ≤ dst.length ∧ (4 * rounds length 0 : Int) ≤ intMax) := by
  refine ⟨?_, ?_, copyWords_isSome_iff, copyWords_isSome_iff⟩
  · rw [bytesHton, convertWords_eq_copyWords, copyWords_isSome_iff, and_self_left]
  · rw [bytesNtoh, convertWords_eq_copyWords, copyWords_isSome_iff, and_self_left]

/-! ## Between machines -/

theorem ntohl_htonl (word : ByteOrder 4) (v : Word) : ntohl word (htonl word v) = v := by
  rw [ntohl, htonl, toBytes_ofBytes (length_toBytes _ v), ofBytes_toBytes]

theorem stored_htonl (word : ByteOrder 4) (words : List Word) :
    stored word (words.map (htonl word)) = stored (bigOrder 4) words := by
  induction words with
  | nil => rfl
  | cons v words ih =>
    have hfirst : toBytes word (htonl word v) = toBytes (bigOrder 4) v := toBytes_ofBytes (length_toBytes _ v)
    exact congrArg₂ (· ++ ·) hfirst ih

/-- Words that one machine has sent are the same words on another one. -/
theorem words_transferred (word word' : ByteOrder 4) (words : List Word) (hrounds : rounds length 0 = words.length)
    (hmax : 4 * (words.length : Int) ≤ intMax) (rest rest' : List Byte) :
    bytesHton word (stored word words ++ rest) length = some (stored (bigOrder 4) words ++ rest) ∧
    bytesNtoh word' (stored (bigOrder 4) words ++ rest') length = some (stored word' words ++ rest') ∧
    ∀ dst : List Byte, 4 * words.length ≤ dst.length →
      cpyBytesHton word dst (stored word words ++ rest) length =
        some (stored (bigOrder 4) words ++ dst.drop (4 * words.length)) ∧
      cpyBytesNtoh word' dst (stored (bigOrder 4) words ++ rest') length =
        some (stored word' words ++ dst.drop (4 * words.length)) := by
  have hindex : ((0 : Nat) : Int) + 4 * words.length ≤ intMax := by
    rw [Nat.cast_zero, Int.zero_add]
    exact hmax
  have hsend : ∀ dst : List Byte, 4 * words.length ≤ dst.length → cpyBytesHton word dst (stored word words ++ rest) length =
      some (stored (bigOrder 4) words ++ dst.drop (4 * words.length)) := by
    intro dst hdst
    rw [cpyBytesHton, copyWords_spec words hrounds hdst hindex, stored_htonl]
  have hreceive : ∀ dst : List Byte, 4 * words.length ≤ dst.length →
      cpyBytesNtoh word' dst (stored (bigOrder 4) words ++ rest') length =
        some (stored word' words ++ dst.drop (4 * words.length)) := by
    intro dst hdst
    have hback : ∀ v ∈ words, (ntohl word' ∘ htonl word') v = v := fun v _ => ntohl_htonl word' v
    rw [cpyBytesNtoh, ← stored_htonl word', copyWords_spec (words.map (htonl word')) (by rw [List.length_map, hrounds])
      (by rwa [List.length_map]) (by rwa [List.length_map]), List.map_map, List.map_congr_left hback, List.map_id',
      List.length_map]
  have hroom : ∀ (word : ByteOrder 4) (rest : List Byte), 4 * words.length ≤ (stored word words ++ rest).length := by
    intro word rest
    rw [List.length_append, length_stored]
    exact Nat.le_add_right _ _
  have hbehind : ∀ (word : ByteOrder 4) (rest : List Byte), (stored word words ++ rest).drop (4 * words.length) = rest := by
    intro word rest
    rw [← length_stored word words, List.drop_left]
  refine ⟨?_, ?_, fun dst hdst => ⟨hsend dst hdst, hreceive dst hdst⟩⟩
  · rw [bytesHton, convertWords_eq_copyWords]
    exact (hsend _ (hroom word rest)).trans (by rw [hbehind])
  · rw [bytesNtoh, convertWords_eq_copyWords]
    exact (hreceive _ (hroom _ rest')).trans (by rw [hbehind])

/-- A length of five bytes takes eight. -/
theorem two_words_transferred :
    bytesHton (littleOrder 4) [1, 0, 0, 0, 2, 0, 0, 0, 9] 5 = some [0, 0, 0, 1, 0, 0, 0, 2, 9] ∧
    bytesNtoh (littleOrder 4) [0, 0, 0, 1, 0, 0, 0, 2] 5 = some [1, 0, 0, 0, 2, 0, 0, 0] := by
  have hrounds : rounds 5 0 = [1, 2].length := by decide
  have hwords := words_transferred (littleOrder 4) (littleOrder 4) [1, 2] hrounds (by decide) [9] []
  exact ⟨hwords.1, hwords.2.1⟩

end Devclego.Utils

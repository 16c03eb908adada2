import Devclego.Macs.Model

/-!
# When MAC addresses survive the way through text

`mac_ntop` prints a byte from `0x80` on as a negative number, with eight digits. Every
other byte takes two, which `mac_pton` reads back. So an address comes back just when
its bytes are below `0x80`, and a text just when its groups begin with a digit below
eight.
-/
namespace Devclego.Macs

open Foundation

/-- Six groups are `IsMacText 6`: two digits each, with colons or hyphens between them. -/
inductive IsMacText : Nat → List Byte → Prop where
  | last (c c' : Byte) (h : IsHexDigit c) (h' : IsHexDigit c') : IsMacText 1 [c, c']
  | group (c c' separator : Byte) {n : Nat} {rest : List Byte} (h : IsHexDigit c) (h' : IsHexDigit c')
      (hseparator : separator = ascii ':' ∨ separator = ascii '-') (hrest : IsMacText n rest) :
      IsMacText (n + 1) (c :: c' :: separator :: rest)

/-- The first digit of each group. -/
def leadingDigits : List Byte → List Byte
  | c :: _ :: _ :: rest => c :: leadingDigits rest
  | c :: _ => [c]
  | [] => []

/-- In upper case and with colons. -/
def canonical (c : Byte) : Byte := if c = ascii '-' then ascii ':' else toupper c

/-- The address is written as 17 characters and the terminator, and read back. -/
def AddressReturns (addr buffer dst : List Byte) : Prop :=
  ∃ text dst', macNtop addr buffer = some text ∧ strlen text = some 17 ∧ text.drop 18 = buffer.drop 18 ∧
    macPton text dst = some dst' ∧ dst'.take 6 = addr

/-- The text, with any bytes behind its terminator, is read and written back as it was. -/
def TextReturns (text behind dst buffer : List Byte) : Prop :=
  ∃ addr text', macPton (text ++ 0 :: behind) dst = some addr ∧ macNtop addr buffer = some text' ∧
    cString text' = some (text.map canonical)

/-! ## One group -/

theorem groupByte_eq {c c' : Byte} {n m : Nat} (hn : n < 16) (hm : m < 16) (hc : toupper c = hexChar n)
    (hc' : toupper c' = hexChar m) : groupByte c c' = BitVec.ofNat 8 (16 * n + m) := by
  have hall : ∀ n, n < 16 → ∀ m, m < 16 →
      ((((digitValue (hexChar n) <<< 4).setWidth 8 : Byte).setWidth 32 ||| digitValue (hexChar m)).setWidth 8 : Byte) =
        BitVec.ofNat 8 (16 * n + m) := by decide +kernel
  rw [groupByte, hc, hc']
  exact hall n hn m hm

theorem leading_small_iff {c : Byte} {n : Nat} (h : IsHexDigit c) (hn : n < 16) (hc : toupper c = hexChar n) :
    c < ascii '8' ↔ n < 8 := by
  have hall : ∀ c : Byte, IsHexDigit c → ∀ n, n < 16 → toupper c = hexChar n → (c < ascii '8' ↔ n < 8) := by
    decide +kernel
  exact hall c h n hn hc

theorem canonical_digit {c : Byte} (h : IsHexDigit c) : canonical c = toupper c := by
  have hall : ∀ c : Byte, IsHexDigit c → c ≠ ascii '-' := by decide +kernel
  exact if_neg (hall c h)

theorem canonical_separator {c : Byte} (h : c = ascii ':' ∨ c = ascii '-') : canonical c = ascii ':' := by
  rcases h with rfl | rfl
  · decide
  · decide

/-- A byte with the sign bit clear takes two digits, any other eight. -/
theorem printByte_digits (n m : Nat) (hn : n < 8) (hm : m < 16) :
    printByte (BitVec.ofNat 8 (16 * n + m)) = [hexChar n, hexChar m] := by
  have hall : ∀ n, n < 8 → ∀ m, m < 16 → printByte (BitVec.ofNat 8 (16 * n + m)) = [hexChar n, hexChar m] := by
    decide +kernel
  exact hall n hn m hm

theorem length_printByte (b : Byte) : (printByte b).length = if b < 0x80#8 then 2 else 8 := by
  revert b
  decide +kernel

theorem exists_digits {b : Byte} (h : b < 0x80#8) : ∃ n, n < 8 ∧ ∃ m, m < 16 ∧ b = BitVec.ofNat 8 (16 * n + m) := by
  refine ⟨b.toNat / 16, ?_, b.toNat % 16, Nat.mod_lt _ (by decide), ?_⟩
  · have hlt : b.toNat < 128 := h
    omega
  · rw [Nat.div_add_mod, BitVec.ofNat_toNat, BitVec.setWidth_eq]

theorem isHexDigit_hexChar {n : Nat} (hn : n < 16) : IsHexDigit (hexChar n) ∧ toupper (hexChar n) = hexChar n := by
  have hall : ∀ n, n < 16 → IsHexDigit (hexChar n) ∧ toupper (hexChar n) = hexChar n := by decide
  exact hall n hn

theorem groupByte_small_iff {c c' : Byte} (h : IsHexDigit c) (h' : IsHexDigit c') :
    groupByte c c' < 0x80#8 ↔ c < ascii '8' := by
  obtain ⟨n, hn, hc⟩ := h.value
  obtain ⟨m, hm, hc'⟩ := h'.value
  have hall : ∀ n, n < 16 → ∀ m, m < 16 → ((BitVec.ofNat 8 (16 * n + m) : Byte) < 0x80#8 ↔ n < 8) := by decide +kernel
  rw [groupByte_eq hn hm hc hc', leading_small_iff h hn hc]
  exact hall n hn m hm

theorem printByte_group {c c' : Byte} (h : IsHexDigit c) (h' : IsHexDigit c') (hsmall : c < ascii '8') :
    printByte (groupByte c c') = [canonical c, canonical c'] := by
  obtain ⟨n, hn, hc⟩ := h.value
  obtain ⟨m, hm, hc'⟩ := h'.value
  rw [groupByte_eq hn hm hc hc', printByte_digits n m ((leading_small_iff h hn hc).mp hsmall) hm,
    canonical_digit h, canonical_digit h', hc, hc']

/-! ## Texts -/

/-- The bytes that the groups of a text stand for. -/
def readBytes : List Byte → List Byte
  | c :: c' :: _ :: rest => groupByte c c' :: readBytes rest
  | [c, c'] => [groupByte c c']
  | _ => []

variable {n : Nat} {text behind bytes : List Byte}

theorem IsMacText.length (h : IsMacText n text) : text.length + 1 = 3 * n := by
  induction h with
  | last c c' h h' => rfl
  | group c c' separator h h' hseparator hrest ih =>
    simp only [List.length_cons]
    omega

theorem IsMacText.ne_zero (h : IsMacText n text) : ∀ c ∈ text, c ≠ 0 := by
  have hdigit : ∀ c : Byte, IsHexDigit c → c ≠ 0 := by decide +kernel
  induction h with
  | last c c' h h' =>
    intro x hx
    simp only [List.mem_cons, List.not_mem_nil, or_false] at hx
    rcases hx with rfl | rfl
    · exact hdigit x h
    · exact hdigit x h'
  | group c c' separator h h' hseparator hrest ih =>
    intro x hx
    simp only [List.mem_cons] at hx
    rcases hx with rfl | rfl | rfl | hx
    · exact hdigit x h
    · exact hdigit x h'
    · rcases hseparator with rfl | rfl
      · decide
      · decide
    · exact ih x hx

theorem IsMacText.length_readBytes (h : IsMacText n text) : (readBytes text).length = n := by
  induction h with
  | last c c' h h' => rfl
  | group c c' separator h h' hseparator hrest ih => rw [readBytes, List.length_cons, ih]

theorem IsMacText.readBytes_ne_nil (h : IsMacText n text) : readBytes text ≠ [] := by
  cases h with
  | last c c' h h' => exact List.cons_ne_nil _ _
  | group c c' separator h h' hseparator hrest => exact List.cons_ne_nil _ _

/-- The loop reads one group a round and stops at the terminator. -/
theorem ptonLoop_text (h : IsMacText n text) (behind : List Byte) {d : List Byte} (hd : n ≤ d.length) :
    ptonLoop (text ++ 0 :: behind) d = some (readBytes text ++ d.drop n) := by
  induction h generalizing d with
  | last c c' h h' =>
    obtain ⟨x, d, rfl⟩ := List.exists_cons_of_length_pos hd
    have hend : ¬ ((0 : Byte) = ascii ':' ∨ (0 : Byte) = ascii '-') := by decide
    simp only [List.cons_append, List.nil_append, ptonLoop, if_neg hend, readBytes, List.drop_succ_cons, List.drop_zero]
  | group c c' separator h h' hseparator hrest ih =>
    obtain ⟨x, d, rfl⟩ := List.exists_cons_of_length_pos (Nat.zero_lt_of_lt hd)
    have hround := ih (Nat.le_of_succ_le_succ hd)
    simp only [List.cons_append, ptonLoop, if_pos hseparator, hround, readBytes, List.drop_succ_cons, Option.map_some]

theorem IsMacText.small_iff (h : IsMacText n text) :
    (∀ b ∈ readBytes text, b < 0x80#8) ↔ ∀ c ∈ leadingDigits text, c < ascii '8' := by
  induction h with
  | last c c' h h' =>
    simp only [readBytes, leadingDigits, List.mem_singleton, forall_eq]
    exact groupByte_small_iff h h'
  | group c c' separator h h' hseparator hrest ih =>
    simp only [readBytes, leadingDigits, List.forall_mem_cons, ih, groupByte_small_iff h h']

theorem printBytes_cons {b : Byte} (hbytes : bytes ≠ []) :
    printBytes (b :: bytes) = printByte b ++ ascii ':' :: printBytes bytes := by
  rw [printBytes, List.map_cons, List.intercalate_cons_of_ne_nil (by simpa using hbytes), List.append_assoc]
  rfl

theorem printBytes_singleton (b : Byte) : printBytes [b] = printByte b := List.intercalate_singleton

theorem printBytes_ne_zero (bytes : List Byte) : ∀ c ∈ printBytes bytes, c ≠ 0 := by
  induction bytes with
  | nil => simp [printBytes]
  | cons b bytes ih =>
    by_cases hbytes : bytes = []
    · rw [hbytes, printBytes_singleton]
      exact printHex_ne_zero _
    · rw [printBytes_cons hbytes]
      intro c hc
      rcases List.mem_append.mp hc with hb | hrest
      · exact printHex_ne_zero _ c hb
      · rcases List.mem_cons.mp hrest with rfl | hrest
        · decide
        · exact ih c hrest

/-- Every byte takes at least two characters, so all take two if the sum is right. -/
theorem length_printBytes (hbytes : bytes ≠ []) :
    3 * bytes.length ≤ (printBytes bytes).length + 1 ∧
      ((printBytes bytes).length + 1 = 3 * bytes.length ↔ ∀ b ∈ bytes, b < 0x80#8) := by
  induction bytes with
  | nil => exact absurd rfl hbytes
  | cons b bytes ih =>
    have hlength := length_printByte b
    rw [List.forall_mem_cons]
    by_cases hrest : bytes = []
    · subst hrest
      rw [printBytes_singleton]
      by_cases hb : b < 0x80#8
      · rw [if_pos hb] at hlength
        simp [hlength, hb]
      · rw [if_neg hb] at hlength
        simp [hlength, hb]
    · obtain ⟨hle, hiff⟩ := ih hrest
      rw [printBytes_cons hrest, List.length_append, List.length_cons, List.length_cons, ← hiff]
      by_cases hb : b < 0x80#8
      · rw [if_pos hb] at hlength
        simp only [hlength, hb, true_and]
        omega
      · rw [if_neg hb] at hlength
        simp only [hlength, hb, false_and, iff_false]
        omega

theorem printBytes_text (hbytes : bytes ≠ []) (hsmall : ∀ b ∈ bytes, b < 0x80#8) :
    IsMacText bytes.length (printBytes bytes) ∧ readBytes (printBytes bytes) = bytes := by
  induction bytes with
  | nil => exact absurd rfl hbytes
  | cons b bytes ih =>
    obtain ⟨hb, hrest⟩ := List.forall_mem_cons.mp hsmall
    obtain ⟨n, hn, m, hm, rfl⟩ := exists_digits hb
    have hn' : n < 16 := by omega
    obtain ⟨hdigit, hupper⟩ := isHexDigit_hexChar hn'
    obtain ⟨hdigit', hupper'⟩ := isHexDigit_hexChar hm
    have hgroup := groupByte_eq hn' hm hupper hupper'
    have hprint := printByte_digits n m hn hm
    by_cases hnil : bytes = []
    · subst hnil
      rw [printBytes_singleton, hprint, readBytes, hgroup]
      exact ⟨.last _ _ hdigit hdigit', rfl⟩
    · obtain ⟨htext, hread⟩ := ih hnil hrest
      rw [printBytes_cons hnil, hprint]
      refine ⟨.group _ _ _ hdigit hdigit' (Or.inl rfl) htext, ?_⟩
      show groupByte _ _ :: readBytes _ = _
      rw [hgroup, hread]

theorem IsMacText.printed (h : IsMacText n text) (hsmall : ∀ c ∈ leadingDigits text, c < ascii '8') :
    printBytes (readBytes text) = text.map canonical := by
  induction h with
  | last c c' h h' =>
    rw [readBytes, printBytes_singleton, printByte_group h h' (hsmall c (List.mem_singleton_self c))]
    rfl
  | group c c' separator h h' hseparator hrest ih =>
    obtain ⟨hc, hleading⟩ := List.forall_mem_cons.mp hsmall
    rw [readBytes, printBytes_cons hrest.readBytes_ne_nil, printByte_group h h' hc, ih hleading]
    simp only [List.map_cons, canonical_separator hseparator, List.cons_append, List.nil_append]

/-! ## The two functions -/

variable {addr dst buffer : List Byte}

/-- Bytes behind the address are not read. -/
theorem macNtop_eq (hbytes : bytes.length = 6) (rest buffer : List Byte) :
    macNtop (bytes ++ rest) buffer = putString (printBytes bytes) buffer := by
  match bytes, hbytes with
  | [b₀, b₁, b₂, b₃, b₄, b₅], _ => rfl

theorem macPton_text (h : IsMacText 6 text) (behind : List Byte) (hdst : 6 ≤ dst.length) :
    macPton (text ++ 0 :: behind) dst = some (readBytes text ++ dst.drop 6) := by
  have hlength := h.length
  have hstrlen : strlen (text ++ 0 :: behind) = some 17 := by
    rw [strlen_append h.ne_zero]
    congr 1
    omega
  have hroom : 6 ≤ (List.replicate 6 (0 : Byte) ++ dst.drop 6).length := by simp
  rw [macPton, clearBytes_eq hdst, hstrlen]
  simp only [Option.bind_eq_bind, Option.bind_some, ne_eq, not_true_eq_false, if_false]
  rw [ptonLoop_text h behind hroom]
  rfl

theorem address_returns_iff (haddr : addr.length = 6) (hbuffer : 18 ≤ buffer.length) (hdst : 6 ≤ dst.length) :
    AddressReturns addr buffer dst ↔ ∀ b ∈ addr, b < 0x80#8 := by
  have hne : addr ≠ [] := List.ne_nil_of_length_pos (by omega)
  have hntop : macNtop addr buffer = putString (printBytes addr) buffer := by
    have h := macNtop_eq haddr [] buffer
    rwa [List.append_nil] at h
  have hiff := (length_printBytes hne).2
  rw [haddr] at hiff
  rw [← hiff]
  constructor
  · intro hreturns
    obtain ⟨text, dst', hput, hstrlen, -⟩ := hreturns
    rw [hntop] at hput
    obtain ⟨-, rfl⟩ := putString_cases hput
    rw [strlen_append (printBytes_ne_zero addr), Option.some.injEq] at hstrlen
    omega
  · intro hlength
    have hroom : (printBytes addr).length < buffer.length := by omega
    obtain ⟨htext, hread⟩ := printBytes_text hne (hiff.mp hlength)
    rw [haddr] at htext
    have h17 : (printBytes addr).length = 17 := by omega
    refine ⟨_, _, hntop.trans (putString_eq hroom), ?_, ?_, macPton_text htext _ hdst, ?_⟩
    · rw [strlen_append (printBytes_ne_zero addr), h17]
    · have hwritten : (printBytes addr ++ [0]).length = 18 := by
        rw [List.length_append, h17]
        rfl
      rw [h17, List.append_cons]
      exact List.drop_left' hwritten
    · rw [hread, List.take_append_of_le_length (by omega), List.take_of_length_le (by omega)]

theorem text_returns_iff (htext : IsMacText 6 text) (behind : List Byte) (hbuffer : 18 ≤ buffer.length)
    (hdst : 6 ≤ dst.length) :
    TextReturns text behind dst buffer ↔ ∀ c ∈ leadingDigits text, c < ascii '8' := by
  have hsix := htext.length_readBytes
  have hlength := htext.length
  have hpton := macPton_text htext behind hdst
  have hntop := macNtop_eq hsix (dst.drop 6) buffer
  constructor
  · intro hreturns
    obtain ⟨addr, text', hread, hput, hstring⟩ := hreturns
    rw [hpton, Option.some.injEq] at hread
    rw [← hread, hntop] at hput
    obtain ⟨-, rfl⟩ := putString_cases hput
    rw [cString_append (printBytes_ne_zero _), Option.some.injEq] at hstring
    have h17 := congrArg List.length hstring
    rw [List.length_map] at h17
    apply htext.small_iff.mp
    apply (length_printBytes htext.readBytes_ne_nil).2.mp
    omega
  · intro hsmall
    have hprint := htext.printed hsmall
    have hroom : (printBytes (readBytes text)).length < buffer.length := by
      rw [hprint, List.length_map]
      omega
    refine ⟨_, _, hpton, hntop.trans (putString_eq hroom), ?_⟩
    rw [cString_append (printBytes_ne_zero _), hprint]

/-- An address comes back from its text just when each of its bytes is below `0x80`, and a
text comes back from its address just when each group begins with a digit below eight. -/
theorem mac_round_trip_iff (addr text behind buffer dst : List Byte) (haddr : addr.length = 6)
    (htext : IsMacText 6 text) (hbuffer : 18 ≤ buffer.length) (hdst : 6 ≤ dst.length) :
    (AddressReturns addr buffer dst ↔ ∀ b ∈ addr, b < 0x80#8) ∧
      (TextReturns text behind dst buffer ↔ ∀ c ∈ leadingDigits text, c < ascii '8') :=
  ⟨address_returns_iff haddr hbuffer hdst, text_returns_iff htext behind hbuffer hdst⟩

/-- An address below `0x80` throughout, and a text in both cases with both separators. -/
theorem mac_round_trip_iff_sample :
    (AddressReturns [0x00, 0x1B, 0x2C, 0x3D, 0x4E, 0x7F] (List.replicate 18 0) (List.replicate 6 0) ↔
      ∀ b ∈ ([0x00, 0x1B, 0x2C, 0x3D, 0x4E, 0x7F] : List Byte), b < 0x80#8) ∧
    (TextReturns (['0', 'a', ':', '1', 'B', '-', '2', 'c', ':', '3', 'D', '-', '4', 'e', ':', '7', 'F'].map ascii) []
        (List.replicate 6 0) (List.replicate 18 0) ↔
      ∀ c ∈ leadingDigits
        (['0', 'a', ':', '1', 'B', '-', '2', 'c', ':', '3', 'D', '-', '4', 'e', ':', '7', 'F'].map ascii),
          c < ascii '8') := by
  refine mac_round_trip_iff _ _ _ _ _ rfl ?_ (by decide) (by decide)
  apply IsMacText.group _ _ _ (by decide) (by decide) (Or.inl rfl)
  apply IsMacText.group _ _ _ (by decide) (by decide) (Or.inr rfl)
  apply IsMacText.group _ _ _ (by decide) (by decide) (Or.inl rfl)
  apply IsMacText.group _ _ _ (by decide) (by decide) (Or.inr rfl)
  apply IsMacText.group _ _ _ (by decide) (by decide) (Or.inl rfl)
  exact IsMacText.last _ _ (by decide) (by decide)

/-- The byte `0x80` is written with eight digits, and a text with that group does not come
back either. -/
theorem sign_bit_not_returned :
    macNtop [0x80, 0, 0, 0, 0, 0] (List.replicate 24 0) =
      some (['F', 'F', 'F', 'F', 'F', 'F', '8', '0', ':', '0', '0', ':', '0', '0', ':', '0', '0', ':', '0', '0', ':',
        '0', '0'].map ascii ++ [0]) ∧
    ¬ AddressReturns [0x80, 0, 0, 0, 0, 0] (List.replicate 24 0) (List.replicate 6 0) ∧
    ¬ TextReturns (['8', '0', ':', '0', '0', ':', '0', '0', ':', '0', '0', ':', '0', '0', ':', '0', '0'].map ascii) []
      (List.replicate 6 0) (List.replicate 24 0) := by
  refine ⟨by decide, fun hreturns => ?_, fun hreturns => ?_⟩
  · have hsmall := (address_returns_iff rfl (by decide) (by decide)).mp hreturns 0x80 (by simp)
    exact absurd hsmall (by decide)
  · have htext : IsMacText 6
        (['8', '0', ':', '0', '0', ':', '0', '0', ':', '0', '0', ':', '0', '0', ':', '0', '0'].map ascii) := by
      apply IsMacText.group _ _ _ (by decide) (by decide) (Or.inl rfl)
      apply IsMacText.group _ _ _ (by decide) (by decide) (Or.inl rfl)
      apply IsMacText.group _ _ _ (by decide) (by decide) (Or.inl rfl)
      apply IsMacText.group _ _ _ (by decide) (by decide) (Or.inl rfl)
      apply IsMacText.group _ _ _ (by decide) (by decide) (Or.inl rfl)
      exact IsMacText.last _ _ (by decide) (by decide)
    have hsmall := (text_returns_iff htext [] (by decide) (by decide)).mp hreturns (ascii '8') (by simp [leadingDigits])
    exact absurd hsmall (by decide)

end Devclego.Macs

import Devclego.Foundation.Machine
import Devclego.Puffers.Mdatapuffer
import Mathlib.Data.List.Forall2

/-!
# A multi-read puffer keeps order and loses nothing

Each loop of the puffer walks over holes to the next item. The lemmas below say
where it stops and which cells it leaves; a round of reads is one look for the
`k`-th unread item and then one walk for each read.
-/
namespace Devclego.Puffers

open Foundation

variable {α : Type}

namespace Mdatapuffer

variable {puffer : Mdatapuffer α} {len : Nat} {cells pre post : List (Option α)} {x : α}

theorem setStart_spec {d fuel : Nat}
    (h : puffer.Holds len (pre ++ (List.replicate d none ++ some x :: post))) (hfuel : d < fuel) :
    setStart puffer fuel ((puffer.start + pre.length) % len) =
      some ((puffer.start + (pre.length + d)) % len) := by
  induction d generalizing pre fuel with
  | zero =>
    obtain ⟨fuel, rfl⟩ := Nat.exists_eq_succ_of_ne_zero (Nat.ne_of_gt hfuel)
    have hslot := h.slot h.cells_lt
    rw [setStart, hslot]
    rfl
  | succ d ih =>
    obtain ⟨fuel, rfl⟩ := Nat.exists_eq_succ_of_ne_zero (Nat.ne_of_gt (Nat.zero_lt_of_lt hfuel))
    rw [List.replicate_succ, List.cons_append] at h
    have hlt := h.cells_lt
    have hslot := h.slot hlt
    have hmoved : pre ++ none :: (List.replicate d none ++ some x :: post) =
        (pre ++ [none]) ++ (List.replicate d none ++ some x :: post) := by simp
    have hrest := ih (hmoved ▸ h) (Nat.lt_of_succ_lt_succ hfuel)
    rw [List.length_append, List.length_singleton] at hrest
    rw [setStart, hslot, show pre.length + (d + 1) = pre.length + 1 + d by omega, ← hrest]
    show setStart puffer fuel _ = _
    rw [h.length_eq, wrap_next (by omega)]

theorem nextReadIndex_spec {d fuel : Nat} {c : Option α}
    (h : puffer.Holds len (pre ++ c :: (List.replicate d none ++ some x :: post))) (hfuel : d < fuel) :
    nextReadIndex puffer fuel ((puffer.start + pre.length) % len) =
      some ((puffer.start + (pre.length + 1 + d)) % len, false) := by
  have hlt := h.cells_lt
  induction d generalizing pre c fuel with
  | zero =>
    obtain ⟨fuel, rfl⟩ := Nat.exists_eq_succ_of_ne_zero (Nat.ne_of_gt hfuel)
    have hne := h.ne_end (Nat.succ_pos pre.length) (by simp)
    have hmoved : pre ++ c :: (some x :: post) = (pre ++ [c]) ++ some x :: post := by simp
    have hh : puffer.Holds len ((pre ++ [c]) ++ some x :: post) := hmoved ▸ h
    have hslot := hh.slot hh.cells_lt
    rw [List.length_append, List.length_singleton] at hslot
    rw [nextReadIndex, h.length_eq, wrap_next (by omega), if_neg hne, hslot]
    rfl
  | succ d ih =>
    obtain ⟨fuel, rfl⟩ := Nat.exists_eq_succ_of_ne_zero (Nat.ne_of_gt (Nat.zero_lt_of_lt hfuel))
    have hne := h.ne_end (Nat.succ_pos pre.length) (by
      simp only [List.length_append, List.length_cons, List.length_replicate]
      omega)
    rw [List.replicate_succ, List.cons_append] at h
    have hmoved : pre ++ c :: (none :: (List.replicate d none ++ some x :: post)) =
        (pre ++ [c]) ++ none :: (List.replicate d none ++ some x :: post) := by simp
    have hh : puffer.Holds len ((pre ++ [c]) ++ none :: (List.replicate d none ++ some x :: post)) :=
      hmoved ▸ h
    have hslot := hh.slot hh.cells_lt
    have hrest := ih hh (Nat.lt_of_succ_lt_succ hfuel) hh.cells_lt
    rw [List.length_append, List.length_singleton] at hslot hrest
    rw [nextReadIndex, h.length_eq, wrap_next (by omega), if_neg hne, hslot,
      show pre.length + 1 + (d + 1) = pre.length + 1 + 1 + d by omega, ← hrest]
    rfl

/-- Skipping `k` items from the first stops at the cell of the `k`-th. -/
theorem skipReadIndex_spec {k : Nat} (h : puffer.Holds len (pre ++ some x :: post))
    (hk : k ≤ post.reduceOption.length) :
    ∃ pre' post', pre ++ some x :: post = pre' ++ post' ∧ pre'.length < len ∧
      skipReadIndex puffer k ((puffer.start + pre.length) % len) =
        some ((puffer.start + pre'.length) % len) ∧
      pre'.reduceOption = pre.reduceOption ++ (x :: post.reduceOption).take k ∧
      post'.reduceOption = (x :: post.reduceOption).drop k := by
  induction k generalizing pre post x with
  | zero =>
    refine ⟨pre, some x :: post, rfl, h.cells_lt, rfl, ?_, ?_⟩
    · rw [List.take_zero, List.append_nil]
    · rw [List.drop_zero, List.reduceOption_cons_of_some]
  | succ k ih =>
    obtain ⟨y, ys, hys⟩ := List.exists_cons_of_length_pos (Nat.lt_of_lt_of_le (Nat.succ_pos k) hk)
    obtain ⟨d, rest, rfl, hrest⟩ := reduceOption_eq_cons hys
    have hd : d < puffer.length := by
      have hfits := h.fits
      simp only [List.length_append, List.length_cons, List.length_replicate] at hfits
      rw [h.length_eq]
      omega
    have hnext := nextReadIndex_spec h hd
    have hmoved : pre ++ some x :: (List.replicate d none ++ some y :: rest) =
        (pre ++ some x :: List.replicate d none) ++ some y :: rest := by simp
    rw [hmoved] at h
    rw [hys, List.length_cons, ← hrest] at hk
    obtain ⟨pre', post', hcells, hlt, hskip, hpre, hpost⟩ := ih h (Nat.le_of_succ_le_succ hk)
    refine ⟨pre', post', hmoved.trans hcells, hlt, ?_, ?_, ?_⟩
    · have hplace : pre.length + 1 + d = (pre ++ some x :: List.replicate d none).length := by
        simp only [List.length_append, List.length_cons, List.length_replicate]
        omega
      rw [skipReadIndex, hnext, hplace]
      exact hskip
    · rw [hpre, List.reduceOption_append, List.reduceOption_cons_of_some,
        List.reduceOption_replicate_none, hys, hrest, List.take_succ_cons, List.append_assoc]
      rfl
    · rw [hpost, hys, hrest, List.drop_succ_cons]

/-- The read index stands at an offset from the start, not wrapped yet after a read
of the last slot. -/
def ReadsAt (puffer : Mdatapuffer α) (len i : Nat) : Prop :=
  (if puffer.readIndex = len then 0 else puffer.readIndex) = (puffer.start + i) % len

theorem setreadindex_spec {k : Nat} (h : puffer.Holds len cells) (hk : k < cells.reduceOption.length) :
    ∃ puffer' pre post, mdatapufferSetreadindex puffer k = some puffer' ∧
      puffer'.Holds len (pre ++ post) ∧ puffer'.ReadsAt len pre.length ∧
      pre.reduceOption = cells.reduceOption.take k ∧ post.reduceOption = cells.reduceOption.drop k := by
  obtain ⟨x, xs, hxs⟩ := List.exists_cons_of_length_pos (Nat.zero_lt_of_lt hk)
  obtain ⟨d, rest, rfl, hrest⟩ := reduceOption_eq_cons hxs
  have hlen : 0 < len := Nat.zero_lt_of_lt h.start_lt
  have hd : d < puffer.length := by
    have hfits := h.fits
    simp only [List.length_append, List.length_cons, List.length_replicate] at hfits
    rw [h.length_eq]
    omega
  have hcount : ¬ puffer.count = 0 := by
    rw [h.count_eq]
    omega
  have hroom : ¬ puffer.count - (k : Int) < 1 := by
    rw [h.count_eq]
    omega
  have hstart : setStart { puffer with plus := (k : Int) } puffer.length puffer.start =
      some ((puffer.start + d) % len) := by
    have hplus : ({ puffer with plus := (k : Int) } : Mdatapuffer α).Holds len
        ([] ++ (List.replicate d none ++ some x :: rest)) :=
      ⟨h.length_eq, h.items_length, h.start_lt, h.fits, h.end_eq, h.count_eq, h.slots⟩
    have hfirst := setStart_spec hplus hd
    rw [List.length_nil, Nat.add_zero, Nat.mod_eq_of_lt h.start_lt, Nat.zero_add] at hfirst
    exact hfirst
  have hmoved : ({ puffer with plus := (k : Int), start := (puffer.start + d) % len } : Mdatapuffer α).Holds
      len ([] ++ some x :: rest) := by
    have ha := h.advance
    exact ⟨ha.length_eq, ha.items_length, ha.start_lt, ha.fits, ha.end_eq, ha.count_eq, ha.slots⟩
  have hk' : k ≤ rest.reduceOption.length := by
    rw [hxs, ← hrest, List.length_cons] at hk
    exact Nat.le_of_lt_succ hk
  obtain ⟨pre, post, hcells, hlt, hskip, hpre, hpost⟩ := skipReadIndex_spec hmoved hk'
  rw [List.length_nil, Nat.add_zero, Nat.mod_eq_of_lt hmoved.start_lt] at hskip
  rw [hxs, ← hrest]
  refine ⟨{ puffer with
      plus := (k : Int)
      start := (puffer.start + d) % len
      readIndex := ((puffer.start + d) % len + pre.length) % len }, pre, post, ?_, ?_, ?_, hpre, hpost⟩
  · simp only [mdatapufferSetreadindex, hcount, hroom, hstart, hskip, Int.toNat_natCast, if_false,
      Option.bind_eq_bind, Option.bind_some]
  · rw [hcells] at hmoved
    exact ⟨hmoved.length_eq, hmoved.items_length, hmoved.start_lt, hmoved.fits, hmoved.end_eq,
      hmoved.count_eq, hmoved.slots⟩
  · have hne : ((puffer.start + d) % len + pre.length) % len ≠ len := Nat.ne_of_lt (Nat.mod_lt _ hlen)
    show (if _ = len then 0 else _) = _
    rw [if_neg hne]

/-- The slot that a round of the read loop looks at. -/
theorem ReadsAt.place {i : Nat} (hat : puffer.ReadsAt len i) (h : puffer.Holds len cells) :
    (if puffer.readIndex = puffer.length then 0 else puffer.readIndex) = (puffer.start + i) % len := by
  rw [h.length_eq]
  exact hat

/-- An item is taken out of its slot. -/
theorem Holds.vacate (h : puffer.Holds len (pre ++ some x :: post)) (readIndex : Nat) (read : Option α) :
    ({ puffer with
        items := puffer.items.set ((puffer.start + pre.length) % len) none
        readIndex := readIndex
        read := read
        count := puffer.count - 1 } : Mdatapuffer α).Holds len (pre ++ none :: post) := by
  refine ⟨h.length_eq, ?_, h.start_lt, ?_, ?_, ?_, ?_⟩
  · rw [List.length_set, h.items_length]
  · simpa using h.fits
  · simpa using h.end_eq
  · have hcount := h.count_eq
    rw [List.reduceOption_append, List.reduceOption_cons_of_some, List.length_append,
      List.length_cons] at hcount
    rw [List.reduceOption_append, List.reduceOption_cons_of_none, List.length_append]
    show puffer.count - 1 = _
    omega
  · have hvacate := h.slots.vacate (by rw [h.items_length]; exact h.cells_lt)
    rwa [h.items_length] at hvacate

/-- The loop of a read, from an offset with only holes before the next item. -/
theorem scanRead_spec {d fuel : Nat}
    (h : puffer.Holds len (pre ++ (List.replicate d none ++ some x :: post)))
    (hat : puffer.ReadsAt len pre.length) (hfuel : d < fuel) :
    ∃ puffer', scanRead fuel puffer = some puffer' ∧ puffer'.read = some x ∧
      ({ puffer' with count := puffer'.count - 1 } : Mdatapuffer α).Holds len
        ((pre ++ List.replicate (d + 1) none) ++ post) ∧
      puffer'.ReadsAt len (pre ++ List.replicate (d + 1) (none : Option α)).length := by
  have hlen : 0 < len := Nat.zero_lt_of_lt h.start_lt
  induction d generalizing puffer pre fuel with
  | zero =>
    obtain ⟨fuel, rfl⟩ := Nat.exists_eq_succ_of_ne_zero (Nat.ne_of_gt hfuel)
    rw [List.replicate_zero, List.nil_append] at h
    have hcells : (pre ++ List.replicate (0 + 1) none) ++ post = pre ++ none :: post := by simp
    refine ⟨{ puffer with
        items := puffer.items.set ((puffer.start + pre.length) % len) none
        readIndex := (puffer.start + pre.length) % len + 1
        read := some x }, ?_, rfl, ?_, ?_⟩
    · rw [scanRead, hat.place h, h.slot h.cells_lt]
      rfl
    · rw [hcells]
      exact h.vacate _ _
    · rw [List.length_append, List.length_replicate]
      exact wrap_next hlen
  | succ d ih =>
    obtain ⟨fuel, rfl⟩ := Nat.exists_eq_succ_of_ne_zero (Nat.ne_of_gt (Nat.zero_lt_of_lt hfuel))
    have hne : (puffer.start + (pre.length + 1)) % len ≠ puffer.endIndex := by
      apply h.ne_end (Nat.succ_pos pre.length)
      simp only [List.length_append, List.length_cons, List.length_replicate]
      omega
    rw [List.replicate_succ, List.cons_append] at h
    have hslot := h.slot h.cells_lt
    have hplace := hat.place h
    have hnext : (if (puffer.start + pre.length) % len + 1 = len then 0
        else (puffer.start + pre.length) % len + 1) = (puffer.start + (pre.length + 1)) % len :=
      wrap_next hlen
    -- The raw index is compared with the end before it is wrapped.
    have hgoes : (puffer.start + pre.length) % len + 1 ≠ puffer.endIndex := by
      intro he
      have hend := h.end_lt
      rw [if_neg (by omega)] at hnext
      exact hne (hnext.symm.trans he)
    have hmoved : pre ++ none :: (List.replicate d none ++ some x :: post) =
        (pre ++ [none]) ++ (List.replicate d none ++ some x :: post) := by simp
    have hh : ({ puffer with readIndex := (puffer.start + pre.length) % len + 1, read := none } :
        Mdatapuffer α).Holds len ((pre ++ [none]) ++ (List.replicate d none ++ some x :: post)) := by
      rw [hmoved] at h
      exact ⟨h.length_eq, h.items_length, h.start_lt, h.fits, h.end_eq, h.count_eq, h.slots⟩
    have hath : ({ puffer with readIndex := (puffer.start + pre.length) % len + 1, read := none } :
        Mdatapuffer α).ReadsAt len (pre ++ [none]).length := by
      rw [List.length_append, List.length_singleton]
      exact hnext
    obtain ⟨puffer', hscan, hread, hholds, hat'⟩ := ih hh hath (Nat.lt_of_succ_lt_succ hfuel)
    have hpre : (pre ++ [none]) ++ List.replicate (d + 1) none =
        pre ++ List.replicate (d + 1 + 1) (none : Option α) := by
      rw [List.append_assoc]
      rfl
    rw [hpre] at hholds hat'
    refine ⟨puffer', ?_, hread, hholds, hat'⟩
    rw [scanRead, hplace, hslot]
    show (if _ = _ then _ else _) = _
    rw [if_neg hgoes]
    exact hscan

theorem read_spec {xs : List α} (h : puffer.Holds len (pre ++ post)) (hat : puffer.ReadsAt len pre.length)
    (hpost : post.reduceOption = x :: xs) :
    ∃ puffer' pre' post', mdatapufferRead puffer = some (puffer', some x) ∧
      puffer'.Holds len (pre' ++ post') ∧ puffer'.ReadsAt len pre'.length ∧
      pre'.reduceOption = pre.reduceOption ∧ post'.reduceOption = xs := by
  obtain ⟨d, rest, rfl, hrest⟩ := reduceOption_eq_cons hpost
  have hd : d < puffer.length + 1 := by
    have hfits := h.fits
    simp only [List.length_append, List.length_cons, List.length_replicate] at hfits
    rw [h.length_eq]
    omega
  obtain ⟨puffer', hscan, hread, hholds, hat'⟩ := scanRead_spec h hat hd
  refine ⟨{ puffer' with count := puffer'.count - 1 }, pre ++ List.replicate (d + 1) none, rest, ?_,
    hholds, hat', ?_, hrest⟩
  · rw [mdatapufferRead, hscan, Option.map_some, hread]
  · rw [List.reduceOption_append, List.reduceOption_replicate_none, List.append_nil]

/-- The reads of a round return the items behind the read index and leave those before it. -/
theorem reads_spec {n : Nat} (h : puffer.Holds len (pre ++ post)) (hat : puffer.ReadsAt len pre.length)
    (hn : n ≤ post.reduceOption.length) :
    ∃ puffer' cells', mdatapufferReads n puffer = some (puffer', (post.reduceOption.take n).map some) ∧
      puffer'.Holds len cells' ∧
      cells'.reduceOption = pre.reduceOption ++ post.reduceOption.drop n := by
  induction n generalizing puffer pre post with
  | zero => exact ⟨puffer, pre ++ post, rfl, h, List.reduceOption_append pre post⟩
  | succ n ih =>
    obtain ⟨y, ys, hys⟩ := List.exists_cons_of_length_pos (Nat.lt_of_lt_of_le (Nat.succ_pos n) hn)
    obtain ⟨puffer₁, pre₁, post₁, hread, hh, hat₁, hpre₁, hpost₁⟩ := read_spec h hat hys
    have hn₁ : n ≤ post₁.reduceOption.length := by
      rw [hys, List.length_cons] at hn
      rw [hpost₁]
      exact Nat.le_of_succ_le_succ hn
    obtain ⟨puffer', cells', hreads, hholds, hcells⟩ := ih hh hat₁ hn₁
    refine ⟨puffer', cells', ?_, hholds, ?_⟩
    · rw [mdatapufferReads, hread, hys, List.take_succ_cons, List.map_cons, ← hpost₁]
      show (mdatapufferReads n puffer₁ >>= _) = _
      rw [hreads]
      rfl
    · rw [hcells, hpre₁, hpost₁, hys, List.drop_succ_cons]

/-- A positive write capacity means room behind the cells, once those of an emptied
ring are forgotten. -/
theorem Holds.room (h : puffer.Holds len cells) (hw : 0 < mdatapufferWritecapacity puffer) :
    ∃ cells', cells'.length < len ∧ puffer.Holds len cells' ∧
      cells'.reduceOption = cells.reduceOption := by
  rcases Nat.lt_or_eq_of_le h.fits with hlt | heq
  · exact ⟨cells, hlt, h, rfl⟩
  · have hstart := h.start_lt
    have hwrap : puffer.endIndex = puffer.start := by
      rw [h.end_eq, heq, Nat.add_mod_right, Nat.mod_eq_of_lt hstart]
    have hzero : puffer.count = 0 := by
      by_contra hc
      rw [mdatapufferWritecapacity, if_neg hc, if_pos hwrap.symm] at hw
      exact absurd hw (by decide)
    have hnone : cells.reduceOption = [] := by
      rw [h.count_eq] at hzero
      exact List.length_eq_zero_iff.mp (by omega)
    refine ⟨[], by rw [List.length_nil]; omega, ?_, hnone.symm⟩
    refine ⟨h.length_eq, h.items_length, hstart, Nat.zero_le _, ?_, hzero, h.slots.forget hnone⟩
    rw [hwrap, List.length_nil, Nat.add_zero, Nat.mod_eq_of_lt hstart]

theorem write_spec (h : puffer.Holds len cells) (hc : cells.length < len) (item : α) :
    ∃ puffer', mdatapufferWrite puffer item = some puffer' ∧
      puffer'.Holds len (cells ++ [some item]) := by
  have hin : puffer.endIndex < puffer.items.length := by
    rw [h.items_length]
    exact h.end_lt
  refine ⟨_, by rw [mdatapufferWrite, if_pos hin], ?_⟩
  refine ⟨h.length_eq, ?_, h.start_lt, ?_, ?_, ?_, ?_⟩
  · rw [List.length_set, h.items_length]
  · rw [List.length_append, List.length_singleton]
    omega
  · show (if _ = _ then _ else _) = _
    rw [h.length_eq, h.end_eq, wrap_next (by omega), List.length_append, List.length_singleton]
  · show puffer.count + 1 = _
    rw [h.count_eq, List.reduceOption_append, List.reduceOption_cons_of_some, List.length_append]
    rfl
  · have hpush := h.slots.push (by rw [h.items_length]; exact hc) item
    rwa [h.items_length, ← h.end_eq] at hpush

/-- The slot a write goes to holds nothing unread. -/
theorem Holds.vacant (h : puffer.Holds len cells) (hc : cells.length < len) :
    puffer.items[puffer.endIndex]? = some none := by
  have hh : puffer.Holds len (cells ++ []) := (List.append_nil cells).symm ▸ h
  have hslot := hh.slot hc
  rwa [← h.end_eq] at hslot

end Mdatapuffer

/-- A round is one `mdatapuffer_setreadindex` and some reads directly after it. -/
inductive MultiReadOp (α : Type) where
  | write (item : α)
  | round (plus reads : Nat)
deriving DecidableEq, Repr

/-- The output is what the reads return. -/
def multiReadStep (puffer : Mdatapuffer α) : MultiReadOp α → Option (Mdatapuffer α × List (Option α))
  | .write item => (mdatapufferWrite puffer item).map (·, [])
  | .round plus reads => do
    let puffer ← mdatapufferSetreadindex puffer plus
    mdatapufferReads reads puffer

/-- What a caller observes before it writes or begins a round. -/
def Readable (puffer : Mdatapuffer α) : MultiReadOp α → Prop
  | .write _ => 0 < mdatapufferWritecapacity puffer
  | .round plus reads => (plus : Int) < puffer.count ∧ (reads : Int) ≤ puffer.count - plus

instance (puffer : Mdatapuffer α) : (op : MultiReadOp α) → Decidable (Readable puffer op)
  | .write _ => inferInstanceAs (Decidable (_ < _))
  | .round _ _ => inferInstanceAs (Decidable (_ ∧ _))

/-- The unread items, oldest first: a round takes `reads` of them from the `plus`-th on. -/
def multiReadSpec (unread : List α) : MultiReadOp α → List α × List (Option α)
  | .write item => (unread ++ [item], [])
  | .round plus reads =>
    (unread.take plus ++ unread.drop (plus + reads), ((unread.drop plus).take reads).map some)

/-- The puffer stores exactly the unread items, in ring order from its start, counts
them, and writes nowhere but into an empty slot. -/
structure Unread (puffer : Mdatapuffer α) (unread : List α) : Prop where
  count_eq : puffer.count = unread.length
  stored : (puffer.items.rotate puffer.start).reduceOption = unread
  spare : 0 < mdatapufferWritecapacity puffer → puffer.items[puffer.endIndex]? = some none

variable {puffer : Mdatapuffer α} {len : Nat}

theorem Mdatapuffer.Holds.unread {cells : List (Option α)} (h : puffer.Holds len cells) :
    Unread puffer cells.reduceOption where
  count_eq := h.count_eq
  stored := h.slots.elements (by rw [h.items_length]; exact h.fits)
  spare := fun hw => by
    obtain ⟨cells', hc, hh, -⟩ := h.room hw
    exact hh.vacant hc

theorem multiReadStep_follows {cells : List (Option α)} {op : MultiReadOp α} (h : puffer.Holds len cells)
    (hop : Readable puffer op) :
    ∃ puffer' out cells', multiReadStep puffer op = some (puffer', out) ∧ puffer'.Holds len cells' ∧
      cells'.reduceOption = (multiReadSpec cells.reduceOption op).1 ∧
      out = (multiReadSpec cells.reduceOption op).2 := by
  cases op with
  | write item =>
    obtain ⟨cells₁, hc, hh, hsame⟩ := h.room hop
    obtain ⟨puffer', hwrite, hholds⟩ := Mdatapuffer.write_spec hh hc item
    refine ⟨puffer', [], cells₁ ++ [some item], ?_, hholds, ?_, rfl⟩
    · rw [multiReadStep, hwrite]
      rfl
    · rw [List.reduceOption_append, hsame]
      rfl
  | round plus reads =>
    obtain ⟨hplus, hreads⟩ : (plus : Int) < puffer.count ∧ (reads : Int) ≤ puffer.count - plus := hop
    rw [h.count_eq] at hplus hreads
    obtain ⟨puffer₁, pre, post, hset, hh, hat, hpre, hpost⟩ :=
      Mdatapuffer.setreadindex_spec h (Int.ofNat_lt.mp hplus)
    have hn : reads ≤ post.reduceOption.length := by
      rw [hpost, List.length_drop]
      omega
    obtain ⟨puffer', cells', hread, hholds, hcells⟩ := Mdatapuffer.reads_spec hh hat hn
    refine ⟨puffer', _, cells', ?_, hholds, ?_, rfl⟩
    · show (mdatapufferSetreadindex puffer plus >>= _) = _
      rw [hpost] at hread
      rw [hset]
      exact hread
    · rw [hcells, hpre, hpost, List.drop_drop]
      rfl

/-- Every sequence of guarded writes and read rounds from a new puffer returns the
items in their order and loses none, whatever `malloc` left in the fresh fields. -/
theorem multiread_keeps_order (hlen : 1 ≤ len) (plus : Int) (read : Option α) (ops : List (MultiReadOp α))
    (hops : Guarded multiReadStep Readable (mdatapufferCtor len plus read) ops) :
    ∃ puffer, run multiReadStep (mdatapufferCtor len plus read) ops =
        some (puffer, (specRun multiReadSpec [] ops).2) ∧
      Unread puffer (specRun multiReadSpec [] ops).1 := by
  have hctor : ∃ cells, (mdatapufferCtor len plus read).Holds len cells ∧ cells.reduceOption = [] :=
    ⟨[], Mdatapuffer.holds_ctor hlen plus read, rfl⟩
  have hstep : ∀ (s : Mdatapuffer α) (a : List α) (op : MultiReadOp α),
      (∃ cells, s.Holds len cells ∧ cells.reduceOption = a) → Readable s op →
      ∃ s' o, multiReadStep s op = some (s', o) ∧
        (∃ cells, s'.Holds len cells ∧ cells.reduceOption = (multiReadSpec a op).1) ∧
        o = (multiReadSpec a op).2 := by
    intro s a op hs hop
    obtain ⟨cells, hholds, rfl⟩ := hs
    obtain ⟨s', o, cells', hs', hholds', hcells', ho⟩ := multiReadStep_follows hholds hop
    exact ⟨s', o, hs', ⟨cells', hholds', hcells'⟩, ho⟩
  obtain ⟨puffer, outs, hrun, hfinal, houts⟩ := run_refines hstep hctor hops
  obtain ⟨cells, hholds, hcells⟩ := hfinal
  rw [List.forall₂_eq_eq_eq] at houts
  subst houts
  rw [← hcells]
  exact ⟨puffer, hrun, hholds.unread⟩

/-- A puffer of length three, skipped in the middle, filled again over the end and
drained. -/
theorem multiread_keeps_order_run :
    ∃ puffer, run multiReadStep (mdatapufferCtor 3 7 none : Mdatapuffer Nat)
        [.write 1, .write 2, .write 3, .round 1 1, .round 0 1, .round 0 0, .write 4, .round 0 2] =
          some (puffer, [[], [], [], [some 2], [some 1], [], [], [some 3, some 4]]) ∧
      Unread puffer [] :=
  multiread_keeps_order (by decide) 7 none _ (by decide)

end Devclego.Puffers

import Devclego.Dictionaries.Slots

/-!
# What each function of a dictionary does

The search stops at the slot of its key and nowhere else, whatever hashes coincide. A
dictionary that is not full has an empty slot, which the search that wraps around
meets within one round.
-/
namespace Devclego.Dictionaries

open Foundation

variable {before : Addr → Option Text} {d : Dictionary} {mem : Mem} {rows : List (Option Row)} {i : Nat}
  {key : Text} {v : Option Text}

/-! ## Searching -/

/-- From slot `i` on, the search finds the key where it is. -/
theorem findKey_spec (h : Represents before d mem rows) (key : Text) (fuel : Nat) (hfuel : fuel + i = d.size) :
    (∃ j v, i ≤ j ∧ slotAt rows j = some (key, v) ∧
      findKey d mem (dictionaryHash key) key fuel i = some (some j)) ∨
    (∀ j v, i ≤ j → slotAt rows j ≠ some (key, v)) ∧ findKey d mem (dictionaryHash key) key fuel i = some none := by
  induction fuel generalizing i with
  | zero =>
    refine Or.inr ⟨fun j v hj hslot => ?_, rfl⟩
    have hlt := h.lt hslot
    omega
  | succ fuel ih =>
    have hlt : i < d.size := by omega
    rw [findKey]
    -- either the search stops here or slot `i` holds another key
    have hnext : (∀ v, slotAt rows i ≠ some (key, v)) →
        (∃ j v, i ≤ j ∧ slotAt rows j = some (key, v) ∧
          findKey d mem (dictionaryHash key) key fuel (i + 1) = some (some j)) ∨
        (∀ j v, i ≤ j → slotAt rows j ≠ some (key, v)) ∧
          findKey d mem (dictionaryHash key) key fuel (i + 1) = some none := by
      intro hother
      rcases ih (show fuel + (i + 1) = d.size by omega) with ⟨j, v, hj, hslot, hfind⟩ | ⟨habsent, hfind⟩
      · exact Or.inl ⟨j, v, by omega, hslot, hfind⟩
      · refine Or.inr ⟨fun j v hj => ?_, hfind⟩
        by_cases hji : j = i
        · exact hji ▸ hother v
        · exact habsent j v (by omega)
    cases hrow : slotAt rows i with
    | none =>
      simp only [(h.free hlt hrow).1, Option.bind_eq_bind, Option.bind_some]
      exact hnext fun v hv => by cases hrow.symm.trans hv
    | some row =>
      obtain ⟨k, w⟩ := row
      obtain ⟨a, p, hk, -, hhash, hread, -⟩ := h.full hrow
      simp only [hk, hhash, hread, Option.bind_eq_bind, Option.bind_some]
      by_cases hkey : key = k
      · subst hkey
        rw [if_pos rfl, if_pos rfl]
        exact Or.inl ⟨i, w, Nat.le_refl i, hrow, rfl⟩
      · rw [if_neg hkey, ite_self]
        apply hnext
        intro v hv
        cases hrow.symm.trans hv
        exact hkey rfl

theorem findKey_found (h : Represents before d mem rows) (hslot : slotAt rows i = some (key, v)) :
    findKey d mem (dictionaryHash key) key d.size 0 = some (some i) := by
  rcases findKey_spec h key d.size (Nat.add_zero _) with ⟨j, w, -, hj, hfind⟩ | ⟨habsent, -⟩
  · rw [hfind, h.distinct j i key w v hj hslot]
  · exact absurd hslot (habsent i v (Nat.zero_le i))

theorem findKey_absent (h : Represents before d mem rows) (habsent : ∀ j v, slotAt rows j ≠ some (key, v)) :
    findKey d mem (dictionaryHash key) key d.size 0 = some none := by
  rcases findKey_spec h key d.size (Nat.add_zero _) with ⟨j, w, -, hj, -⟩ | ⟨-, hfind⟩
  · exact absurd hj (habsent j w)
  · exact hfind

/-- A key is in one slot or in none. -/
theorem found_or_absent (rows : List (Option Row)) (key : Text) :
    (∃ i v, slotAt rows i = some (key, v)) ∨ ∀ i v, slotAt rows i ≠ some (key, v) := by
  by_cases hfound : ∃ i v, slotAt rows i = some (key, v)
  · exact Or.inl hfound
  · exact Or.inr fun i v hslot => hfound ⟨i, v, hslot⟩

theorem dictionaryGet_found (h : Represents before d mem rows) (hslot : slotAt rows i = some (key, v)) :
    ∃ p, dictionaryGet d mem key = some (some p) ∧ PointsTo mem p v := by
  obtain ⟨a, p, -, hval, -, -, hpoints⟩ := h.full hslot
  refine ⟨p, ?_, hpoints⟩
  simp [dictionaryGet, findKey_found h hslot, hval]

theorem dictionaryGet_absent (h : Represents before d mem rows) (habsent : ∀ i v, slotAt rows i ≠ some (key, v)) :
    dictionaryGet d mem key = some none := by
  simp [dictionaryGet, findKey_absent h habsent]

/-! ## Setting -/

/-- `dictionary_set` of a key that is there replaces its value. -/
theorem replaceVal_spec (h : Represents before d mem rows) (hslot : slotAt rows i = some (key, v)) (val : Option Text) :
    ∃ d' mem', replaceVal d mem i val = some (d', mem') ∧
      Represents before d' mem' (rows.set i (some (key, val))) ∧ d'.n = d.n ∧ d'.size = d.size := by
  obtain ⟨a, p, hkey, hval, hhash, hread, -⟩ := h.full hslot
  have hlt := h.lt hslot
  have hplace : place d.key d.val (.val i) = p := by rw [place, slotAt, hval]; rfl
  have hplaceKey : place d.key d.val (.key i) = some a := by rw [place, slotAt, hkey]; rfl
  obtain ⟨mem1, hfree, howns1, hkept1⟩ := freePtr_owned h.owns (.val i)
  rw [hplace] at hfree
  obtain ⟨howns2, hkept2, hpoints⟩ := dupVal_owned howns1 (Function.update_self ..) val
  have hother : ∀ y b, y ≠ .val i → place d.key d.val y = some b → (dupVal mem1 val).1.read b = mem.read b := by
    intro y b hy hb
    rw [hkept2 y b (by rw [Function.update_of_ne hy]; exact hb), hkept1 y b hy hb]
  refine ⟨{ d with val := d.val.set i (dupVal mem1 val).2 }, (dupVal mem1 val).1, ?_, ?_, rfl, rfl⟩
  · simp [replaceVal, hval, hfree]
  · have hedit := h.edit hlt (dupVal mem1 val).1 (some a) (dupVal mem1 val).2 (dictionaryHash key)
      (some (key, val)) d.n ?_ ?_ ?_ ?_ ?_
    · have hsame : d.key.set i (some a) = d.key := by
        obtain ⟨hi, he⟩ := List.getElem?_eq_some_iff.mp hkey
        rw [← he, List.set_getElem_self]
      have hsameHash : d.hash.set i (dictionaryHash key) = d.hash := by
        obtain ⟨hi, he⟩ := List.getElem?_eq_some_iff.mp hhash
        rw [← he, List.set_getElem_self]
      rwa [hsame, hsameHash] at hedit
    · obtain ⟨hi, he⟩ := List.getElem?_eq_some_iff.mp (getElem?_of_slotAt hslot)
      have hpositive : 0 < rows.countP Option.isSome :=
        List.countP_pos_iff.mpr ⟨_, List.mem_of_getElem he, rfl⟩
      rw [h.count, List.countP_set hi, he]
      simp only [Option.isSome_some, ↓reduceIte]
      omega
    · rw [show Function.update (place d.key d.val) (.key i) (some a) = place d.key d.val by
        rw [← hplaceKey, Function.update_eq_self]]
      rwa [Function.update_idem] at howns2
    · exact .full ((hother (.key i) a (by simp) hplaceKey).trans hread) hpoints
    · exact fun y b _ hy hb => hother y b hy hb
    · intro k w hrow j u hji hj
      cases hrow
      exact hji (h.distinct j i key u v hj hslot)

/-- A full dictionary gets as many empty slots again. -/
theorem growIfFull_spec (h : Represents before d mem rows) :
    ∃ free, Represents before (growIfFull d) mem (rows ++ List.replicate free none) ∧ (growIfFull d).n = d.n ∧
      d.n < (growIfFull d).size := by
  have hle : d.n ≤ d.size := by
    rw [h.count, ← h.length]
    exact List.countP_le_length
  by_cases hfull : d.n = d.size
  · refine ⟨d.size, ?_, ?_, ?_⟩
    · rw [growIfFull, if_pos hfull]
      constructor
      · show 0 < d.size * 2
        have hpositive := h.positive
        omega
      · simp [memDouble, h.lengthKey, Nat.mul_two]
      · simp [memDouble, h.lengthVal, Nat.mul_two]
      · simp [memDouble, h.lengthHash, Nat.mul_two]
      · simp [h.length, Nat.mul_two]
      · show d.n = _
        rw [List.countP_append, List.countP_replicate, h.count]
        simp
      · intro i hi
        show SlotHolds mem (slotAt (memDouble none d.key) i) (slotAt (memDouble none d.val) i) (memDouble 0 d.hash)[i]? _
        rw [memDouble, memDouble, slotAt_append_free, slotAt_append_free, slotAt_append_free]
        by_cases hi' : i < d.size
        · rw [memDouble, List.getElem?_append_left (by rw [h.lengthHash]; exact hi')]
          exact h.slot i hi'
        · have hout : ∀ {α : Type} (xs : List (Option α)), xs.length = d.size → slotAt xs i = none := by
            intro α xs hlen
            rw [slotAt, List.getElem?_eq_none (by omega)]
            rfl
          rw [hout d.key h.lengthKey, hout d.val h.lengthVal, hout rows h.length]
          exact .free _
      · rw [slotAt_append_free]
        exact h.distinct
      · show Owns before mem (place (memDouble none d.key) (memDouble none d.val))
        have hsame : place (memDouble none d.key) (memDouble none d.val) = place d.key d.val := by
          funext x
          cases x with
          | key i => exact congrFun (slotAt_append_free d.key _) i
          | val i => exact congrFun (slotAt_append_free d.val _) i
        rw [hsame]
        exact h.owns
    · rw [growIfFull, if_pos hfull]
    · rw [growIfFull, if_pos hfull]
      show d.n < d.size * 2
      have hpositive := h.positive
      omega
  · refine ⟨0, ?_, ?_, ?_⟩
    · rw [growIfFull, if_neg hfull, List.replicate_zero, List.append_nil]
      exact h
    · rw [growIfFull, if_neg hfull]
    · rw [growIfFull, if_neg hfull]
      omega

/-- The search for an empty slot goes through the indices in a ring. -/
theorem emptySlot_spec (hlength : d.key.length = d.size) (rounds : Nat) (hi : i < d.size)
    (hfree : ∃ t < rounds, d.key[(i + t) % d.size]? = some none) :
    ∃ j, emptySlot d rounds i = some j ∧ d.key[j]? = some none ∧ (d.key[i]? = some none → j = i) := by
  induction rounds generalizing i with
  | zero =>
    obtain ⟨t, ht, -⟩ := hfree
    exact absurd ht (Nat.not_lt_zero t)
  | succ rounds ih =>
    obtain ⟨t, ht, hslot⟩ := hfree
    obtain ⟨p, hp⟩ : ∃ p, d.key[i]? = some p := ⟨_, List.getElem?_eq_getElem (hlength ▸ hi)⟩
    cases p with
    | none => exact ⟨i, by simp [emptySlot, hp], hp, fun _ => rfl⟩
    | some a =>
      have hnext : (if i + 1 = d.size then 0 else i + 1) = (i + 1) % d.size := by
        split
        · rw [‹i + 1 = d.size›, Nat.mod_self]
        · rw [Nat.mod_eq_of_lt (by omega)]
      have hrest : ∃ t < rounds, d.key[((i + 1) % d.size + t) % d.size]? = some none := by
        cases t with
        | zero =>
          rw [Nat.add_zero, Nat.mod_eq_of_lt hi, hp] at hslot
          cases hslot
        | succ t =>
          refine ⟨t, by omega, ?_⟩
          rw [Nat.mod_add_mod, Nat.add_assoc, Nat.add_comm 1 t]
          exact hslot
      obtain ⟨j, hj, hjfree, -⟩ := ih (Nat.mod_lt _ (by omega)) hrest
      refine ⟨j, ?_, hjfree, fun h => ?_⟩
      · simp only [emptySlot, hp, Option.bind_eq_bind, Option.bind_some, hnext]
        exact hj
      · cases hp.symm.trans h

theorem emptySlot_found (h : Represents before d mem rows) (hroom : d.n < d.size) :
    ∃ j, emptySlot d d.size d.n = some j ∧ j < d.size ∧ slotAt rows j = none ∧ (slotAt rows d.n = none → j = d.n) := by
  have hfree : ∃ j < d.size, slotAt rows j = none := by
    by_contra hnone
    have hall : ∀ row ∈ rows, row.isSome = true := by
      intro row hrow
      obtain ⟨j, hj⟩ := List.mem_iff_getElem?.mp hrow
      have hlt : j < d.size := h.length ▸ (List.getElem?_eq_some_iff.mp hj).1
      cases row with
      | some r => rfl
      | none => exact absurd ⟨j, hlt, by rw [slotAt, hj]; rfl⟩ hnone
    have hcount := h.count
    rw [List.countP_eq_length.mpr hall, h.length] at hcount
    omega
  obtain ⟨j, hj, hslot⟩ := hfree
  have hring : (d.n + (j + d.size - d.n) % d.size) % d.size = j := by
    rw [Nat.add_mod_mod, show d.n + (j + d.size - d.n) = j + d.size by omega, Nat.add_mod_right, Nat.mod_eq_of_lt hj]
  obtain ⟨j', hfound, hempty, hfirst⟩ := emptySlot_spec h.lengthKey d.size hroom
    ⟨(j + d.size - d.n) % d.size, Nat.mod_lt _ h.positive, by rw [hring]; exact (h.key_none_iff hj).mpr hslot⟩
  have hlt : j' < d.size := h.lengthKey ▸ (List.getElem?_eq_some_iff.mp hempty).1
  exact ⟨j', hfound, hlt, (h.key_none_iff hlt).mp hempty, fun hn => hfirst ((h.key_none_iff hroom).mpr hn)⟩

/-- A key that is not there goes to an empty slot. -/
theorem storeKey_spec (h : Represents before d mem rows) (hroom : d.n < d.size)
    (habsent : ∀ i v, slotAt rows i ≠ some (key, v)) (val : Option Text) :
    ∃ d' mem' j, storeKey d mem (dictionaryHash key) key val = some (d', mem') ∧
      Represents before d' mem' (rows.set j (some (key, val))) ∧ j < rows.length ∧ slotAt rows j = none ∧
      (slotAt rows d.n = none → j = d.n) ∧ d'.n = d.n + 1 ∧ d'.size = d.size := by
  obtain ⟨j, hfound, hlt, hempty, hfirst⟩ := emptySlot_found h hroom
  obtain ⟨hkey, hval⟩ := h.free hlt hempty
  have hplaceKey : place d.key d.val (.key j) = none := by rw [place, slotAt, hkey]; rfl
  have hplaceVal : place d.key d.val (.val j) = none := by rw [place, slotAt, hval]; rfl
  have howns1 := h.owns.alloc hplaceKey key
  obtain ⟨howns2, hkept, hpoints⟩ := dupVal_owned (x := .val j) howns1
    (by rw [Function.update_of_ne (by simp)]; exact hplaceVal) val
  have hother : ∀ y b, y ≠ .key j → place d.key d.val y = some b →
      (dupVal (mem.alloc key).1 val).1.read b = mem.read b := by
    intro y b hy hb
    rw [hkept y b (by rw [Function.update_of_ne hy]; exact hb), h.owns.read_alloc hb]
  refine ⟨_, _, j, ?_, h.edit hlt _ (some mem.size) (dupVal (mem.alloc key).1 val).2
    (dictionaryHash key) _ (d.n + 1) ?_ howns2 ?_ ?_ ?_, h.length ▸ hlt, hempty, hfirst, rfl, rfl⟩
  · simp only [storeKey, hfound, xstrdup, Option.bind_eq_bind, Option.bind_some]
    rfl
  · rw [countP_set_slot (getElem?_slotAt (h.length ▸ hlt) |>.trans (by rw [hempty])) (key, val) rfl, h.count]
  · refine .full ?_ hpoints
    rw [hkept (.key j) mem.size (Function.update_self ..)]
    exact mem.read_alloc_self key
  · exact fun y b hy _ hb => hother y b hy hb
  · intro k w hrow i u _ hi
    cases hrow
    exact habsent i u hi

/-- What `dictionary_set` makes of the slots. -/
inductive SetRows (key : Text) (val : Option Text) (n : Nat) (rows rows' : List (Option Row)) : Prop where
  | replaced (i : Nat) (v : Option Text) (h : slotAt rows i = some (key, v)) (he : rows' = rows.set i (some (key, val)))
  | stored (free i : Nat) (hi : i < rows.length + free) (habsent : ∀ i v, slotAt rows i ≠ some (key, v))
      (h : slotAt rows i = none) (hfirst : slotAt rows n = none → i = n)
      (he : rows' = (rows ++ List.replicate free none).set i (some (key, val)))

theorem dictionarySet_spec (h : Represents before d mem rows) (key : Text) (val : Option Text) :
    ∃ d' mem' rows', dictionarySet d mem (some key) val = some (d', mem', 0) ∧ Represents before d' mem' rows' ∧
      SetRows key val d.n rows rows' := by
  rcases found_or_absent rows key with ⟨i, v, hslot⟩ | habsent
  · obtain ⟨d', mem', hreplace, hrep, -, -⟩ := replaceVal_spec h hslot val
    have hpositive : 0 < d.n := by
      rw [h.count]
      exact List.countP_pos_iff.mpr ⟨_, mem_iff_slotAt.mpr ⟨i, hslot⟩, rfl⟩
    refine ⟨d', mem', _, ?_, hrep, .replaced i v hslot rfl⟩
    simp [dictionarySet, hpositive, findKey_found h hslot, hreplace]
  · obtain ⟨free, hgrow, hn, hroom⟩ := growIfFull_spec h
    have hsame := slotAt_append_free rows free
    obtain ⟨d', mem', j, hstore, hrep, hj, hempty, hfirst, -, -⟩ :=
      storeKey_spec hgrow (hn ▸ hroom) (fun i v => by rw [hsame]; exact habsent i v : ∀ i v, _ ≠ some (key, v)) val
    rw [hsame] at hempty hfirst
    rw [hn] at hfirst
    refine ⟨d', mem', _, ?_, hrep, .stored free j (by simpa using hj) habsent hempty hfirst rfl⟩
    simp [dictionarySet, findKey_absent h habsent, hstore]

/-! ## Unsetting -/

theorem dictionaryUnset_found (h : Represents before d mem rows) (hslot : slotAt rows i = some (key, v)) :
    ∃ d' mem', dictionaryUnset d mem (some key) = some (d', mem') ∧ Represents before d' mem' (rows.set i none) := by
  obtain ⟨a, p, hkey, hval, -, -, -⟩ := h.full hslot
  have hlt := h.lt hslot
  have hplaceKey : place d.key d.val (.key i) = some a := by rw [place, slotAt, hkey]; rfl
  have hplaceVal : place d.key d.val (.val i) = p := by rw [place, slotAt, hval]; rfl
  obtain ⟨mem1, hfree1, howns1, hkept1⟩ := freePtr_owned h.owns (.key i)
  obtain ⟨mem2, hfree2, howns2, hkept2⟩ := freePtr_owned howns1 (.val i)
  rw [Function.update_of_ne (by simp), hplaceVal] at hfree2
  rw [hplaceKey] at hfree1
  refine ⟨_, mem2, ?_, h.edit hlt mem2 none none 0 none (d.n - 1) ?_ howns2 (.free _) ?_
    (by simp)⟩
  · simp [dictionaryUnset, findKey_found h hslot, hkey, hfree1, hval, hfree2]
  · obtain ⟨hi, he⟩ := List.getElem?_eq_some_iff.mp (getElem?_of_slotAt hslot)
    rw [h.count, List.countP_set hi, he]
    simp
  · intro y b hy hy' hb
    rw [hkept2 y b hy' (by rw [Function.update_of_ne hy]; exact hb), hkept1 y b hy hb]

theorem dictionaryUnset_absent (h : Represents before d mem rows) (habsent : ∀ i v, slotAt rows i ≠ some (key, v)) :
    dictionaryUnset d mem (some key) = some (d, mem) := by
  simp [dictionaryUnset, findKey_absent h habsent]

/-! ## Creating and deleting -/

theorem represents_new (mem : Mem) (size : Nat) :
    ∃ slots, Represents mem.read (dictionaryNew size) mem (List.replicate slots none) := by
  have hpositive : 0 < (dictionaryNew size).size := by
    show 0 < if size < dictminsz then dictminsz else size
    split
    · decide
    · have hmin : 0 < dictminsz := by decide
      omega
  refine ⟨(dictionaryNew size).size, ?_⟩
  constructor
  · exact hpositive
  · exact List.length_replicate
  · exact List.length_replicate
  · exact List.length_replicate
  · exact List.length_replicate
  · rw [List.countP_replicate]
    rfl
  · intro i hi
    show SlotHolds mem (slotAt (List.replicate _ none) i) (slotAt (List.replicate _ none) i) _ _
    simp only [slotAt_replicate]
    exact .free _
  · intro i j k v w hi
    rw [slotAt_replicate] at hi
    cases hi
  · have hnone : place (dictionaryNew size).key (dictionaryNew size).val = fun _ => none := by
      funext x
      cases x with
      | key i => exact slotAt_replicate _ i
      | val i => exact slotAt_replicate _ i
    rw [hnone]
    exact owns_nothing mem

/-- The places that `dictionary_del` has not come to. -/
def ahead (key val : List Ptr) (i : Nat) : Place → Ptr
  | .key j => if j < i then none else slotAt key j
  | .val j => if j < i then none else slotAt val j

theorem ahead_succ (key val : List Ptr) (i : Nat) :
    Function.update (Function.update (ahead key val i) (.key i) none) (.val i) none = ahead key val (i + 1) := by
  have hcases : ∀ j, j ≠ i → (j < i ↔ j < i + 1) := by
    intro j hj
    omega
  funext x
  cases x with
  | key j =>
    rw [Function.update_of_ne (by simp)]
    by_cases hj : j = i
    · subst hj
      rw [Function.update_self, ahead, if_pos (Nat.lt_succ_self j)]
    · rw [Function.update_of_ne (fun he => hj (Place.key.inj he)), ahead, ahead]
      simp only [hcases j hj]
  | val j =>
    by_cases hj : j = i
    · subst hj
      rw [Function.update_self, ahead, if_pos (Nat.lt_succ_self j)]
    · rw [Function.update_of_ne (fun he => hj (Place.val.inj he)), Function.update_of_ne (by simp), ahead, ahead]
      simp only [hcases j hj]

theorem delLoop_spec (hkey : d.key.length = d.size) (hval : d.val.length = d.size) (fuel : Nat)
    (hfuel : fuel + i = d.size) (howns : Owns before mem (ahead d.key d.val i)) :
    ∃ mem', delLoop d fuel i mem = some mem' ∧ Owns before mem' (ahead d.key d.val d.size) := by
  induction fuel generalizing i mem with
  | zero => exact ⟨mem, rfl, by rwa [← hfuel, Nat.zero_add]⟩
  | succ fuel ih =>
    obtain ⟨mem1, hfree1, howns1, -⟩ := freePtr_owned howns (.key i)
    obtain ⟨mem2, hfree2, howns2, -⟩ := freePtr_owned howns1 (.val i)
    rw [ahead, if_neg (Nat.lt_irrefl i)] at hfree1
    rw [Function.update_of_ne (by simp), ahead, if_neg (Nat.lt_irrefl i)] at hfree2
    rw [ahead_succ] at howns2
    obtain ⟨mem', hrest, howns'⟩ := ih (show fuel + (i + 1) = d.size by omega) howns2
    refine ⟨mem', ?_, howns'⟩
    simp [delLoop, getElem?_slotAt (show i < d.key.length by omega), getElem?_slotAt (show i < d.val.length by omega),
      hfree1, hfree2, hrest]

/-- `dictionary_del` frees every string of the dictionary, and nothing else. -/
theorem dictionaryDel_spec (h : Represents before d mem rows) :
    ∃ mem', dictionaryDel d mem = some mem' ∧ mem'.read = before := by
  have hstart : ahead d.key d.val 0 = place d.key d.val := by
    funext x
    cases x with
    | key j => rfl
    | val j => rfl
  obtain ⟨mem', hdel, howns⟩ := delLoop_spec h.lengthKey h.lengthVal d.size (Nat.add_zero _) (hstart ▸ h.owns)
  refine ⟨mem', hdel, howns.nothing_left fun x => ?_⟩
  have hout : ∀ (array : List Ptr) j, array.length = d.size → (if j < d.size then none else slotAt array j) = none := by
    intro array j hlength
    split
    · rfl
    · rw [slotAt, List.getElem?_eq_none (by omega)]
      rfl
  cases x with
  | key j => exact hout d.key j h.lengthKey
  | val j => exact hout d.val j h.lengthVal

end Devclego.Dictionaries

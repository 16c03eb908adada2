import Mathlib.Data.List.ReduceOption
import Devclego.Foundation.Machine
import Devclego.Dictionaries.Operations

/-!
# A dictionary is a finite map

The map gives for each key the value that was set last, which may be null. Slots that
were emptied are used again and a full dictionary doubles; neither shows. The strings
belong to the dictionary alone, so that `dictionary_del` leaves none behind.
-/
namespace Devclego.Dictionaries

open Foundation

/-- A dictionary and the strings in memory. -/
abbrev Store := Dictionary × Mem

inductive Call where
  | set (key val : Option Text)
  | get (key : Text)
  | unset (key : Option Text)
deriving DecidableEq, Repr

inductive Reply where
  | status (code : Int)
  | found (val : Option (Option Text))
  | nothing
deriving DecidableEq, Repr

/-- The string that a caller finds behind a pointer. -/
def readVal (mem : Mem) : Ptr → Option (Option Text)
  | none => some none
  | some a => (mem.read a).map some

/-- What the caller of `dictionary_get` reads. -/
def getText (s : Store) (key : Text) : Option (Option (Option Text)) := do
  match ← dictionaryGet s.1 s.2 key with
  | none => some none
  | some p => (readVal s.2 p).map some

def callStep (s : Store) : Call → Option (Store × Reply)
  | .set key val => (dictionarySet s.1 s.2 key val).map fun r => ((r.1, r.2.1), .status r.2.2)
  | .get key => (getText s key).map fun val => (s, .found val)
  | .unset key => (dictionaryUnset s.1 s.2 key).map fun s' => (s', .nothing)

/-- The values of the keys that are there. -/
abbrev Map := Text → Option (Option Text)

def mapStep (m : Map) : Call → Map × Reply
  | .set none _ => (m, .status (-1))
  | .set (some key) val => (Function.update m key (some val), .status 0)
  | .get key => (m, .found (m key))
  | .unset none => (m, .nothing)
  | .unset (some key) => (Function.update m key none, .nothing)

/-- The slots hold the map. -/
def Holds (rows : List (Option Row)) (m : Map) : Prop := ∀ key val, m key = some val ↔ ∃ i, slotAt rows i = some (key, val)

variable {before : Addr → Option Text} {s s' : Store} {rows rows' : List (Option Row)} {m : Map} {key : Text}
  {val : Option Text} {n : Nat}

/-! ## Slots and the map -/

theorem holds_empty (slots : Nat) : Holds (List.replicate slots none) fun _ => none := by
  intro key val
  constructor
  · intro h
    cases h
  · rintro ⟨i, hi⟩
    rw [slotAt_replicate] at hi
    cases hi

theorem Holds.absent (h : Holds rows m) : m key = none ↔ ∀ i v, slotAt rows i ≠ some (key, v) := by
  constructor
  · intro hnone i v hi
    cases hnone.symm.trans ((h key v).mpr ⟨i, hi⟩)
  · intro habsent
    cases hkey : m key with
    | none => rfl
    | some v =>
      obtain ⟨i, hi⟩ := (h key v).mp hkey
      exact absurd hi (habsent i v)

theorem SetRows.holds (hset : SetRows key val n rows rows') (h : Holds rows m)
    (hdistinct : ∀ i j k v w, slotAt rows i = some (k, v) → slotAt rows j = some (k, w) → i = j) :
    Holds rows' (Function.update m key (some val)) := by
  -- the slot that was set, and the other slots
  obtain ⟨i, hself, hother, honly⟩ : ∃ i, slotAt rows' i = some (key, val) ∧
      (∀ j, j ≠ i → slotAt rows' j = slotAt rows j) ∧ ∀ j v, slotAt rows j = some (key, v) → j = i := by
    cases hset with
    | replaced i v hslot he =>
      rw [he, slotAt_set (lt_of_slotAt hslot)]
      exact ⟨i, Function.update_self .., fun j hj => Function.update_of_ne hj _ _,
        fun j w hj => hdistinct j i key w v hj hslot⟩
    | stored free i hi habsent hslot hfirst he =>
      rw [he, slotAt_set (by simpa using hi), slotAt_append_free]
      exact ⟨i, Function.update_self .., fun j hj => Function.update_of_ne hj _ _, fun j w hj => absurd hj (habsent j w)⟩
  have hfree : ∀ k v, k ≠ key → slotAt rows i ≠ some (k, v) := by
    intro k v hk hi
    cases hset with
    | replaced j w hslot he =>
      have hji := honly j w hslot
      rw [hji, hi] at hslot
      cases hslot
      exact hk rfl
    | stored free j hj habsent hslot hfirst he =>
      by_cases hji : i = j
      · rw [hji, hslot] at hi
        cases hi
      · have hsame := hself
        rw [he, slotAt_set (by simpa using hj), slotAt_append_free, Function.update_of_ne hji, hi] at hsame
        cases hsame
        exact hk rfl
  intro k v
  by_cases hk : k = key
  · subst hk
    rw [Function.update_self]
    constructor
    · intro he
      cases he
      exact ⟨i, hself⟩
    · rintro ⟨j, hj⟩
      by_cases hji : j = i
      · rw [hji, hself] at hj
        cases hj
        rfl
      · rw [hother j hji] at hj
        exact absurd (honly j v hj) hji
  · rw [Function.update_of_ne hk, h k v]
    constructor
    · rintro ⟨j, hj⟩
      refine ⟨j, ?_⟩
      rw [hother j fun hji => hfree k v hk (hji ▸ hj)]
      exact hj
    · rintro ⟨j, hj⟩
      refine ⟨j, ?_⟩
      rw [← hother j fun hji => ?_]
      · exact hj
      · rw [hji, hself] at hj
        cases hj
        exact hk rfl

theorem Holds.unset {i : Nat} (h : Holds rows m) (hslot : slotAt rows i = some (key, val))
    (hdistinct : ∀ i j k v w, slotAt rows i = some (k, v) → slotAt rows j = some (k, w) → i = j) :
    Holds (rows.set i none) (Function.update m key none) := by
  intro k v
  rw [slotAt_set (lt_of_slotAt hslot)]
  by_cases hk : k = key
  · subst hk
    rw [Function.update_self]
    constructor
    · intro he
      cases he
    · rintro ⟨j, hj⟩
      by_cases hji : j = i
      · rw [hji, Function.update_self] at hj
        cases hj
      · rw [Function.update_of_ne hji] at hj
        exact absurd (hdistinct j i k v val hj hslot) hji
  · rw [Function.update_of_ne hk, h k v]
    constructor
    · rintro ⟨j, hj⟩
      have hji : j ≠ i := by
        rintro rfl
        rw [hslot] at hj
        cases hj
        exact hk rfl
      exact ⟨j, by rw [Function.update_of_ne hji]; exact hj⟩
    · rintro ⟨j, hj⟩
      by_cases hji : j = i
      · rw [hji, Function.update_self] at hj
        cases hj
      · rw [Function.update_of_ne hji] at hj
        exact ⟨j, hj⟩

/-! ## One call -/

/-- A dictionary whose slots hold the map. -/
def Refines (before : Addr → Option Text) (s : Store) (m : Map) : Prop :=
  ∃ rows, Represents before s.1 s.2 rows ∧ Holds rows m

theorem refines_new (mem : Mem) (size : Nat) : Refines mem.read (dictionaryNew size, mem) fun _ => none := by
  obtain ⟨slots, hrep⟩ := represents_new mem size
  exact ⟨_, hrep, holds_empty slots⟩

theorem readVal_pointsTo {mem : Mem} {p : Ptr} (h : PointsTo mem p val) : readVal mem p = some val := by
  cases h with
  | none => rfl
  | some hr => simp [readVal, hr]

theorem Refines.get (h : Refines before s m) (key : Text) : getText s key = some (m key) := by
  obtain ⟨rows, hrep, hholds⟩ := h
  cases hkey : m key with
  | none => simp [getText, dictionaryGet_absent hrep (hholds.absent.mp hkey)]
  | some v =>
    obtain ⟨i, hslot⟩ := (hholds key v).mp hkey
    obtain ⟨p, hget, hpoints⟩ := dictionaryGet_found hrep hslot
    simp [getText, hget, readVal_pointsTo hpoints]

theorem Refines.set (h : Refines before s m) (key : Text) (val : Option Text) :
    ∃ d' mem', dictionarySet s.1 s.2 (some key) val = some (d', mem', 0) ∧
      Refines before (d', mem') (Function.update m key (some val)) := by
  obtain ⟨rows, hrep, hholds⟩ := h
  obtain ⟨d', mem', rows', hset, hrep', hrows⟩ := dictionarySet_spec hrep key val
  exact ⟨d', mem', hset, rows', hrep', hrows.holds hholds hrep.distinct⟩

theorem Refines.unset (h : Refines before s m) (key : Text) :
    ∃ s', dictionaryUnset s.1 s.2 (some key) = some s' ∧ Refines before s' (Function.update m key none) := by
  obtain ⟨rows, hrep, hholds⟩ := h
  rcases found_or_absent rows key with ⟨i, v, hslot⟩ | habsent
  · obtain ⟨d', mem', hunset, hrep'⟩ := dictionaryUnset_found hrep hslot
    exact ⟨(d', mem'), hunset, _, hrep', hholds.unset hslot hrep.distinct⟩
  · refine ⟨s, dictionaryUnset_absent hrep habsent, rows, hrep, ?_⟩
    rwa [← hholds.absent.mpr habsent, Function.update_eq_self]

theorem Refines.step (h : Refines before s m) (call : Call) :
    ∃ s' reply, callStep s call = some (s', reply) ∧ Refines before s' (mapStep m call).1 ∧
      reply = (mapStep m call).2 := by
  cases call with
  | set key val =>
    cases key with
    | none => exact ⟨s, _, rfl, h, rfl⟩
    | some key =>
      obtain ⟨d', mem', hset, h'⟩ := h.set key val
      exact ⟨(d', mem'), .status 0, by simp [callStep, hset], h', rfl⟩
  | get key => exact ⟨s, .found (m key), by simp [callStep, h.get key], h, rfl⟩
  | unset key =>
    cases key with
    | none => exact ⟨s, _, rfl, h, rfl⟩
    | some key =>
      obtain ⟨s', hunset, h'⟩ := h.unset key
      exact ⟨s', .nothing, by simp [callStep, hunset], h', rfl⟩

/-! ## Every sequence of calls -/

theorem run_map (mem : Mem) (size : Nat) (calls : List Call) :
    ∃ s replies, run callStep (dictionaryNew size, mem) calls = some (s, replies) ∧
      Refines mem.read s (specRun mapStep (fun _ => none) calls).1 ∧
      replies = (specRun mapStep (fun _ => none) calls).2 := by
  have hstep : ∀ s m call, Refines mem.read s m → True → ∃ s' reply, callStep s call = some (s', reply) ∧
      Refines mem.read s' (mapStep m call).1 ∧ reply = (mapStep m call).2 := fun s m call h _ => h.step call
  obtain ⟨s, replies, hrun, h, hout⟩ := run_refines hstep (refines_new mem size) (guarded_trivial _ calls)
  exact ⟨s, replies, hrun, h, List.forall₂_eq_eq_eq ▸ hout⟩

/-! ## The keys -/

/-- The keys in the order of their slots. -/
def slotKeys (rows : List (Option Row)) : List Text := rows.reduceOption.map Prod.fst

theorem nodup_slotKeys (h : Represents before s.1 s.2 rows) : (slotKeys rows).Nodup := by
  rw [slotKeys, List.Nodup, List.pairwise_map, List.reduceOption, List.pairwise_filterMap, List.pairwise_iff_getElem]
  intro i j hi hj hij row hrow row' hrow' hsame
  obtain ⟨k, v⟩ := row
  obtain ⟨k', v'⟩ := row'
  have hslot : ∀ (l : Nat) (hl : l < rows.length) (r : Row), rows[l] = some r → slotAt rows l = some r := by
    intro l hl r hr
    rw [slotAt, List.getElem?_eq_getElem hl, hr]
    rfl
  have hkeys : k = k' := hsame
  subst hkeys
  exact absurd (h.distinct i j k v v' (hslot i hi _ hrow) (hslot j hj _ hrow')) (Nat.ne_of_lt hij)

theorem mem_slotKeys (h : Holds rows m) : key ∈ slotKeys rows ↔ (m key).isSome := by
  rw [slotKeys, List.mem_map, Option.isSome_iff_exists]
  constructor
  · rintro ⟨⟨k, v⟩, hrow, rfl⟩
    exact ⟨v, (h k v).mpr (mem_iff_slotAt.mp (List.reduceOption_mem_iff.mp hrow))⟩
  · rintro ⟨v, hv⟩
    exact ⟨(key, v), List.reduceOption_mem_iff.mpr (mem_iff_slotAt.mpr ((h key v).mp hv)), rfl⟩

theorem Refines.keys (h : Refines before s m) :
    ∃ keys : List Text, keys.Nodup ∧ keys.length = s.1.n ∧ ∀ key, key ∈ keys ↔ (m key).isSome := by
  obtain ⟨rows, hrep, hholds⟩ := h
  refine ⟨slotKeys rows, nodup_slotKeys hrep, ?_, fun key => mem_slotKeys hholds⟩
  rw [slotKeys, List.length_map, hrep.count, List.reduceOption_length_eq, List.countP_eq_length_filter]

/-- Every sequence of calls returns what the finite map returns, and `n` counts the
keys of the map. -/
theorem dictionary_refines_map (mem : Mem) (size : Nat) (calls : List Call) :
    ∃ s replies, run callStep (dictionaryNew size, mem) calls = some (s, replies) ∧
      replies = (specRun mapStep (fun _ => none) calls).2 ∧
      ∃ keys : List Text, keys.Nodup ∧ keys.length = s.1.n ∧
        ∀ key, key ∈ keys ↔ ((specRun mapStep (fun _ => none) calls).1 key).isSome := by
  obtain ⟨s, replies, hrun, h, hout⟩ := run_map mem size calls
  exact ⟨s, replies, hrun, hout, h.keys⟩

/-- The strings of others are never touched, and `dictionary_del` frees all strings
that the calls have left. -/
theorem dictionary_frees_its_strings (mem : Mem) (size : Nat) (calls : List Call) :
    ∃ s replies mem', run callStep (dictionaryNew size, mem) calls = some (s, replies) ∧
      (∀ a text, mem.read a = some text → s.2.read a = some text) ∧
      dictionaryDel s.1 s.2 = some mem' ∧ mem'.read = mem.read := by
  obtain ⟨s, replies, hrun, ⟨rows, hrep, -⟩, -⟩ := run_map mem size calls
  obtain ⟨mem', hdel, hread⟩ := dictionaryDel_spec hrep
  refine ⟨s, replies, mem', hrun, fun a text ha => ?_, hdel, hread⟩
  rw [hrep.owns.frame a fun x hx => ?_]
  · exact ha
  · cases ha.symm.trans (hrep.owns.fresh x a hx)

end Devclego.Dictionaries

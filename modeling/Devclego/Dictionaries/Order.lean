import Devclego.Dictionaries.Refinement

/-!
# The order of the slots

As long as nothing is unset, the keys stand in the first slots, in the order in which
they were set first.
-/
namespace Devclego.Dictionaries

open Foundation

def addKey (keys : List Text) : Call → List Text
  | .set (some key) _ => if key ∈ keys then keys else keys ++ [key]
  | _ => keys

/-- The keys that are set, in the order of their first time. -/
def setOrder (calls : List Call) : List Text := calls.foldl addKey []

/-- The free slots are the last ones. -/
def Compact (rows : List (Option Row)) (keys : List Text) : Prop :=
  ∃ (entries : List Row) (free : Nat), rows = entries.map some ++ List.replicate free none ∧ entries.map Prod.fst = keys

variable {before : Addr → Option Text} {s s' : Store} {rows rows' : List (Option Row)} {m : Map} {keys : List Text}
  {key : Text} {val : Option Text} {n : Nat}

theorem Compact.slotKeys (h : Compact rows keys) : slotKeys rows = keys := by
  obtain ⟨entries, free, rfl, rfl⟩ := h
  rw [Dictionaries.slotKeys, List.reduceOption_append, List.reduceOption_replicate_none, List.append_nil]
  congr 1
  rw [List.reduceOption, List.filterMap_map]
  exact List.filterMap_some

theorem SetRows.compact (hset : SetRows key val n rows rows') (h : Compact rows keys) (hn : n = keys.length) :
    Compact rows' (addKey keys (.set (some key) val)) := by
  obtain ⟨entries, free, rfl, rfl⟩ := h
  have hkeys : ∀ i row, slotAt (entries.map some ++ List.replicate free none) i = some row ↔ entries[i]? = some row := by
    intro i row
    rw [slotAt_append_free, slotAt, List.getElem?_map]
    cases entries[i]? <;> simp
  cases hset with
  | replaced i v hslot he =>
    rw [hkeys] at hslot
    obtain ⟨hi, hget⟩ := List.getElem?_eq_some_iff.mp hslot
    have hmem : key ∈ entries.map Prod.fst := List.mem_map.mpr ⟨_, List.mem_of_getElem hget, rfl⟩
    refine ⟨entries.set i (key, val), free, ?_, ?_⟩
    · rw [he, List.set_append_left _ _ (by rwa [List.length_map]), List.map_set]
    · have hlt : i < (entries.map Prod.fst).length := by rwa [List.length_map]
      have hsame : (entries.map Prod.fst)[i] = key := by rw [List.getElem_map, hget]
      rw [addKey, if_pos hmem, List.map_set]
      show (entries.map Prod.fst).set i key = _
      conv_lhs => rw [← hsame, List.set_getElem_self]
  | stored more i hi habsent hslot hfirst he =>
    have hmem : key ∉ entries.map Prod.fst := by
      intro hm
      obtain ⟨⟨k, v⟩, hrow, rfl⟩ := List.mem_map.mp hm
      obtain ⟨j, hj⟩ := List.mem_iff_getElem?.mp hrow
      exact habsent j v ((hkeys j (k, v)).mpr hj)
    rw [List.length_map] at hn
    have hin : i = entries.length := by
      rw [← hn]
      apply hfirst
      cases hend : slotAt (entries.map some ++ List.replicate free none) n with
      | none => rfl
      | some row =>
        rw [hkeys, hn, List.getElem?_eq_none (Nat.le_refl _)] at hend
        cases hend
    subst hin
    rw [List.length_append, List.length_map, List.length_replicate] at hi
    obtain ⟨room, hroom⟩ : ∃ room, free + more = room + 1 := ⟨free + more - 1, by omega⟩
    refine ⟨entries ++ [(key, val)], room, ?_, ?_⟩
    · rw [he, List.append_assoc, ← List.replicate_add, hroom, List.set_append_right _ _ (by simp), List.length_map,
        Nat.sub_self, List.replicate_succ, List.set_cons_zero]
      simp
    · rw [addKey, if_neg hmem]
      simp

/-- Calls that unset nothing keep the order. -/
theorem run_ordered {calls : List Call} {replies : List Reply} (hcalls : ∀ key, .unset key ∉ calls)
    (h : ∃ rows, Represents before s.1 s.2 rows ∧ Holds rows m ∧ Compact rows keys)
    (hrun : run callStep s calls = some (s', replies)) :
    ∃ rows, Represents before s'.1 s'.2 rows ∧ Holds rows (specRun mapStep m calls).1 ∧
      Compact rows (calls.foldl addKey keys) := by
  induction calls generalizing s m keys replies with
  | nil =>
    cases hrun
    exact h
  | cons call calls ih =>
    obtain ⟨t, reply, t', more, hstep, hrest, he⟩ := run_cons.mp hrun
    cases he
    refine ih (fun key hk => hcalls key (List.mem_cons_of_mem call hk)) ?_ hrest
    obtain ⟨rows, hrep, hholds, hcompact⟩ := h
    cases call with
    | get key =>
      obtain ⟨r, -, he⟩ := Option.map_eq_some_iff.mp hstep
      cases he
      exact ⟨rows, hrep, hholds, hcompact⟩
    | unset key => exact absurd (List.mem_cons_self ..) (hcalls key)
    | set key val =>
      cases key with
      | none =>
        cases hstep
        exact ⟨rows, hrep, hholds, hcompact⟩
      | some key =>
        obtain ⟨d, mem, rows', hset, hrep', hrows⟩ := dictionarySet_spec hrep key val
        simp only [callStep, hset, Option.map_some, Option.some.injEq, Prod.mk.injEq] at hstep
        obtain ⟨rfl, -⟩ := hstep
        have hn : s.1.n = keys.length := by
          have hkeys := congrArg List.length hcompact.slotKeys
          rw [slotKeys, List.length_map, List.reduceOption_length_eq, ← List.countP_eq_length_filter, ← hrep.count] at hkeys
          exact hkeys
        exact ⟨rows', hrep', hrows.holds hholds hrep.distinct, hrows.compact hcompact hn⟩

theorem new_ordered (mem : Mem) (size : Nat) :
    ∃ rows, Represents mem.read (dictionaryNew size) mem rows ∧ Holds rows (fun _ => none) ∧ Compact rows [] := by
  obtain ⟨slots, hrep⟩ := represents_new mem size
  exact ⟨_, hrep, holds_empty slots, [], slots, rfl, rfl⟩

end Devclego.Dictionaries

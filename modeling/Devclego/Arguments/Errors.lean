import Devclego.Arguments.Model

/-!
# The errors that are kept

The terminator keeps as many errors as it has room for, the first ones. When there are
more, the last place says so.
-/
namespace Devclego.Arguments

open Foundation

def limitReached : Registered := { error := argElimit, parent := none, argval := none }

/-- What is kept of the errors in their order. -/
def keptErrors (room : Nat) (rs : List Registered) : List Registered :=
  if rs.length ≤ room then rs else rs.take (room - 1) ++ [limitReached]

/-- A terminator with room for an error in which these have been registered. -/
structure Logs (this : ArgEnd) (rs : List Registered) : Prop where
  room : 0 < this.maxcount
  size : (this.errors.length : Int) = this.maxcount
  count : this.count = min (rs.length : Int) this.maxcount
  kept : this.errors.take this.count.toNat = (keptErrors this.maxcount.toNat rs).map some

variable {this : ArgEnd} {rs : List Registered} {room : Nat}

theorem length_keptErrors (hroom : 0 < room) : (keptErrors room rs).length = min rs.length room := by
  unfold keptErrors
  split
  · omega
  · rw [List.length_append, List.length_take, List.length_singleton]
    omega

theorem keptErrors_add (hroom : 0 < room) (r : Registered) :
    keptErrors room (rs ++ [r]) =
      if rs.length < room then keptErrors room rs ++ [r] else (keptErrors room rs).take (room - 1) ++ [limitReached] := by
  unfold keptErrors
  rw [List.length_append, List.length_singleton]
  by_cases hfull : rs.length < room
  · rw [if_pos hfull, if_pos (by omega), if_pos (by omega)]
  · have htake : (rs ++ [r]).take (room - 1) = rs.take (room - 1) := List.take_append_of_le_length (by omega)
    rw [if_neg hfull, if_neg (by omega), htake]
    by_cases hlast : rs.length ≤ room
    · rw [if_pos hlast]
    · have hlength : (rs.take (room - 1)).length = room - 1 := by
        rw [List.length_take]
        omega
      rw [if_neg hlast, List.take_left' hlength]

theorem Logs.register (h : Logs this rs) (r : Registered) :
    ∃ this', argRegisterError this r = some this' ∧ this'.maxcount = this.maxcount ∧ Logs this' (rs ++ [r]) := by
  obtain ⟨hroom, hsize, hcount, hkept⟩ := h
  have hadd := @keptErrors_add rs this.maxcount.toNat (by omega) r
  unfold argRegisterError
  by_cases hfull : this.count < this.maxcount
  · have hstore : storeAt this.errors this.count r = some (this.errors.set this.count.toNat (some r)) := if_pos (by omega)
    rw [if_pos hfull, hstore]
    refine ⟨_, rfl, rfl, hroom, ?_, ?_, ?_⟩
    · rw [List.length_set]
      exact hsize
    · rw [List.length_append, List.length_singleton]
      dsimp only
      omega
    · -- the first places stay as they are
      have hnext : (this.count + 1).toNat = this.count.toNat + 1 := by omega
      have hlt : this.count.toNat < this.errors.length := by omega
      dsimp only
      rw [hadd, if_pos (by omega), hnext, List.take_add_one, List.take_set_of_le (Nat.le_refl _), hkept,
        List.getElem?_set_self hlt, List.map_append]
      rfl
  · have hstore : storeAt this.errors (this.maxcount - 1) limitReached =
        some (this.errors.set (this.maxcount - 1).toNat (some limitReached)) := if_pos (by omega)
    have hfirst : this.count.toNat = (this.maxcount - 1).toNat + 1 := by omega
    have hlast : this.maxcount.toNat - 1 = (this.maxcount - 1).toNat := by omega
    have hlt : (this.maxcount - 1).toNat < this.errors.length := by omega
    rw [if_neg hfull]
    refine ⟨{ this with errors := this.errors.set (this.maxcount - 1).toNat (some limitReached) }, ?_, rfl, hroom, ?_, ?_, ?_⟩
    · rw [← limitReached, hstore]
      rfl
    · rw [List.length_set]
      exact hsize
    · rw [List.length_append, List.length_singleton]
      dsimp only
      omega
    · -- all but the last place stay as they are
      have hbefore : this.errors.take (this.maxcount - 1).toNat =
          ((keptErrors this.maxcount.toNat rs).map some).take (this.maxcount - 1).toNat := by
        rw [← hkept, List.take_take, Nat.min_eq_left (by omega)]
      dsimp only
      rw [hadd, if_neg (by omega), hfirst, hlast, List.take_add_one, List.take_set_of_le (Nat.le_refl _), hbefore,
        List.getElem?_set_self hlt, List.map_append, List.map_take]
      rfl

theorem Logs.registerAll (h : Logs this rs) (rs' : List Registered) :
    ∃ this', Arguments.registerAll this rs' = some this' ∧ this'.maxcount = this.maxcount ∧ Logs this' (rs ++ rs') := by
  induction rs' generalizing this rs with
  | nil =>
    refine ⟨this, rfl, rfl, ?_⟩
    rw [List.append_nil]
    exact h
  | cons r rs' ih =>
    obtain ⟨next, hnext, hmax, hlogs⟩ := h.register r
    obtain ⟨last, hlast, hmax', hall⟩ := ih hlogs
    refine ⟨last, ?_, hmax'.trans hmax, ?_⟩
    · unfold Arguments.registerAll
      rw [List.foldlM_cons, hnext]
      exact hlast
    · rw [List.append_assoc] at hall
      exact hall

/-- No error has been registered since `resetfn_end`. -/
theorem logs_reset (hroom : 0 < this.maxcount) (hsize : (this.errors.length : Int) = this.maxcount) :
    Logs { this with count := 0 } [] where
  room := hroom
  size := hsize
  count := by
    rw [List.length_nil]
    dsimp only
    omega
  kept := by
    have hnone : keptErrors this.maxcount.toNat [] = [] := if_pos (Nat.zero_le _)
    dsimp only
    rw [hnone]
    rfl

/-- Whatever is registered, in a terminator for `maxcount` errors the first errors are
kept; without room for one, the first error is already written outside. -/
theorem errors_kept (maxcount : Int) (rs : List Registered) :
    (0 < maxcount → ∃ this, registerAll (argEnd maxcount) rs = some this ∧ this.count = min (rs.length : Int) maxcount ∧
      this.errors.take this.count.toNat = (keptErrors maxcount.toNat rs).map some) ∧
    (maxcount ≤ 0 → (registerAll (argEnd maxcount) rs = none ↔ rs ≠ [])) := by
  constructor
  · intro hroom
    have hsize : ((argEnd maxcount).errors.length : Int) = maxcount := by
      unfold argEnd
      rw [List.length_replicate]
      omega
    obtain ⟨this, hall, hmax, hlogs⟩ := (@logs_reset (argEnd maxcount) hroom hsize).registerAll rs
    have hcount := hlogs.count
    have hkept := hlogs.kept
    rw [hmax] at hcount hkept
    exact ⟨this, hall, hcount, hkept⟩
  · intro hroom
    have hfault : ∀ r, argRegisterError (argEnd maxcount) r = none := by
      intro r
      have hfull : ¬ (argEnd maxcount).count < (argEnd maxcount).maxcount := Int.not_lt.mpr hroom
      have hstore : storeAt (argEnd maxcount).errors ((argEnd maxcount).maxcount - 1) limitReached = none := by
        refine if_neg fun hindex => ?_
        have hstart : (argEnd maxcount).maxcount = maxcount := rfl
        omega
      unfold argRegisterError
      rw [if_neg hfull, ← limitReached, hstore]
      rfl
    cases rs with
    | nil =>
      refine iff_of_false ?_ (not_not.mpr rfl)
      intro h
      cases h
    | cons r rs =>
      refine iff_of_true ?_ (List.cons_ne_nil r rs)
      unfold registerAll
      rw [List.foldlM_cons, hfault]
      rfl

end Devclego.Arguments

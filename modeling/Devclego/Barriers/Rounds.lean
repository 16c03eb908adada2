import Mathlib.Algebra.Group.Nat.Defs
import Devclego.Barriers.Model
import Mathlib.Data.List.Perm.Subperm
import Mathlib.Data.List.Range

/-!
# Rounds of the barrier

The `k`-th call that is counted belongs to round `k / n`. The invariant ties the word
to the round that is under way: while it fills, the word is the number of threads
inside; while it drains, it is that number with the flag added. Between two rounds
the word may be zero or the bare flag.
-/
namespace Devclego.Barriers

open Foundation

/-- What the past must have been when something happens: the entry of a call, that
every earlier round has been left; its return, that its own round is complete, and
that the call is the thread's own and returns once. -/
def Admissible (n : Nat) (past : List Event) : Event → Prop
  | .enter _ => ∀ i, i < (entered past).length / n * n → i ∈ (left past).map Prod.fst
  | .leave thread entry _ =>
    (entered past)[entry]? = some thread ∧ (entry / n + 1) * n ≤ (entered past).length ∧
      entry ∉ (left past).map Prod.fst

/-- What the calls of round `r` returned. -/
def roundValues (n r : Nat) (history : List Event) : List Int :=
  ((left history).filter fun l => l.1 / n = r).map Prod.snd

structure RoundsKept (n : Nat) (history : List Event) : Prop where
  admissible : ∀ past e future, history = past ++ e :: future → Admissible n past e
  serial : ∀ r, (roundValues n r history).length = n → (roundValues n r history).count serialThread = 1
  zero : ∀ r, (roundValues n r history).length = n → (roundValues n r history).count 0 = n - 1

/-- The entries of the threads that wait in the second loop. -/
def insides (parked : List (Nat × Place)) : List (Nat × Nat) :=
  parked.filterMap fun u => match u.2 with
    | .gate => none
    | .inside entry => some (entry, u.1)

/-- The word, the round under way, the calls counted so far, and the threads inside. -/
inductive Phase (n : Nat) : Nat → Nat → Nat → Nat → Prop where
  | filling (r c : Nat) (room : c < n) : Phase n c r (r * n + c) c
  | opened (r : Nat) : Phase n barrierFlag.toNat r (r * n) 0
  | draining (r m : Nat) (some_inside : 0 < m) (room : m < n) : Phase n (barrierFlag.toNat + m) r (r * n + n) m

/-- The value a call must return: the last of its round gets the other one. -/
def valueOf (n entry : Nat) : Int := if entry % n = n - 1 then serialThread else 0

/-- The history, with the calls `ins` counted and not yet returned. -/
structure Recorded (n : Nat) (history : List Event) (ins : List (Nat × Nat)) : Prop where
  inside : ∀ u ∈ ins, (entered history)[u.1]? = some u.2
  distinct : (ins.map Prod.fst).Nodup
  gone : ∀ i, i ∈ (left history).map Prod.fst ↔ i < (entered history).length ∧ i ∉ ins.map Prod.fst
  once : ((left history).map Prod.fst).Nodup
  values : ∀ l ∈ left history, l.2 = valueOf n l.1
  admissible : ∀ past e future, history = past ++ e :: future → Admissible n past e

/-- The invariant in round `r`. The threads inside are not the last of the round. -/
structure Kept (n : Nat) (this : Barrier) (r : Nat) : Prop where
  gatenum : this.gatenum = BitVec.ofNat 32 n
  phase : Phase n this.current.toNat r (entered this.history).length (insides this.parked).length
  bounds : ∀ u ∈ insides this.parked, r * n ≤ u.1 ∧ u.1 + 1 < r * n + n
  recorded : Recorded n this.history (insides this.parked)

variable {n r : Nat} {this : Barrier} {t : Nat}

/-! ## Histories -/

@[simp] theorem entered_append (h : List Event) (e : Event) :
    entered (h ++ [e]) = entered h ++ entered [e] := by
  simp [entered]

@[simp] theorem left_append (h : List Event) (e : Event) : left (h ++ [e]) = left h ++ left [e] := by
  simp [left]

@[simp] theorem entered_enter (t : Nat) : entered [.enter t] = [t] := rfl

@[simp] theorem entered_leave (t k : Nat) (v : Int) : entered [.leave t k v] = [] := rfl

@[simp] theorem left_enter (t : Nat) : left [.enter t] = [] := rfl

@[simp] theorem left_leave (t k : Nat) (v : Int) : left [.leave t k v] = [(k, v)] := rfl

theorem admissible_append {h : List Event} {e : Event}
    (hall : ∀ past e future, h = past ++ e :: future → Admissible n past e) (he : Admissible n h e) :
    ∀ past e' future, h ++ [e] = past ++ e' :: future → Admissible n past e' := by
  intro past e' future hsplit
  rcases List.eq_nil_or_concat future with rfl | ⟨fs, f, rfl⟩
  · obtain ⟨rfl, hee⟩ := List.append_inj' hsplit rfl
    cases hee
    exact he
  · rw [List.concat_eq_append, ← List.cons_append, ← List.append_assoc] at hsplit
    obtain ⟨hh, -⟩ := List.append_inj' hsplit rfl
    exact hall past e' fs hh

/-! ## Completed rounds -/

theorem nodup_range_perm {xs : List Nat} {a m : Nat} (hn : xs.Nodup) (hlen : xs.length = m)
    (hmem : ∀ x ∈ xs, a ≤ x ∧ x < a + m) : xs.Perm (List.range' a m) := by
  have hsub : xs ⊆ List.range' a m := fun x hx => List.mem_range'_1.mpr (hmem x hx)
  exact (hn.subperm hsub).perm_of_length_le (by simp [hlen])

/-- The calls of a complete round are all of its entries, in some order. -/
theorem roundValues_perm (hn : 0 < n) {h : List Event} (once : ((left h).map Prod.fst).Nodup)
    (values : ∀ l ∈ left h, l.2 = valueOf n l.1) (hfull : (roundValues n r h).length = n) :
    (roundValues n r h).Perm ((List.range' (r * n) n).map (valueOf n)) := by
  let ls := (left h).filter fun l => l.1 / n = r
  have hvalues : roundValues n r h = (ls.map Prod.fst).map (valueOf n) := by
    rw [List.map_map]
    refine List.map_congr_left fun l hl => ?_
    exact values l (List.mem_of_mem_filter hl)
  have hsub : (ls.map Prod.fst).Sublist ((left h).map Prod.fst) := List.filter_sublist.map _
  have hlen : (ls.map Prod.fst).length = n := by
    rw [hvalues, List.length_map] at hfull
    exact hfull
  rw [hvalues]
  refine (nodup_range_perm (once.sublist hsub) hlen ?_).map _
  intro i hi
  obtain ⟨l, hl, rfl⟩ := List.mem_map.mp hi
  have hr : l.1 / n = r := by simpa using (List.mem_filter.mp hl).2
  rw [← hr]
  exact ⟨Nat.div_mul_le_self _ _, Nat.lt_div_mul_add hn⟩

theorem mod_of_round {i : Nat} (h : r * n ≤ i) (h' : i < r * n + n) : i % n = i - r * n := by
  obtain ⟨j, rfl⟩ := Nat.exists_eq_add_of_le h
  rw [Nat.add_comm, Nat.add_mul_mod_self_right, Nat.mod_eq_of_lt (by omega)]
  omega

theorem valueOf_range (hn : 0 < n) (r : Nat) :
    (List.range' (r * n) n).map (valueOf n) = List.replicate (n - 1) 0 ++ [serialThread] := by
  obtain ⟨m, rfl⟩ : ∃ m, n = m + 1 := ⟨n - 1, by omega⟩
  rw [List.range'_1_concat, List.map_append, List.map_singleton]
  congr 1
  · rw [List.eq_replicate_iff]
    refine ⟨by simp, fun v hv => ?_⟩
    obtain ⟨i, hi, rfl⟩ := List.mem_map.mp hv
    rw [List.mem_range'_1] at hi
    rw [valueOf, mod_of_round hi.1 (by omega), if_neg (by omega)]
  · rw [valueOf, mod_of_round (Nat.le_add_right _ _) (by omega), if_pos (by omega)]

theorem Recorded.rounds (hn : 0 < n) {history : List Event} {ins : List (Nat × Nat)}
    (h : Recorded n history ins) : RoundsKept n history where
  admissible := h.admissible
  serial := by
    intro r hfull
    rw [(roundValues_perm hn h.once h.values hfull).count_eq, valueOf_range hn]
    simp [List.count_replicate, serialThread]
  zero := by
    intro r hfull
    rw [(roundValues_perm hn h.once h.values hfull).count_eq, valueOf_range hn]
    simp [serialThread]

/-! ## Recording -/

variable {history : List Event} {ins ins' : List (Nat × Nat)} {k : Nat}

theorem recorded_nil (n : Nat) : Recorded n [] [] where
  inside := by simp
  distinct := List.nodup_nil
  gone := by simp [left, entered]
  once := List.nodup_nil
  values := by simp [left]
  admissible := by simp

theorem Recorded.lt (h : Recorded n history ins) {u : Nat × Nat} (hu : u ∈ ins) :
    u.1 < (entered history).length :=
  (List.getElem?_eq_some_iff.mp (h.inside u hu)).1

theorem Recorded.perm (h : Recorded n history ins) (hp : ins'.Perm ins) : Recorded n history ins' where
  inside := fun u hu => h.inside u (hp.mem_iff.mp hu)
  distinct := (hp.map Prod.fst).nodup_iff.mpr h.distinct
  gone := by
    intro i
    rw [(hp.map Prod.fst).mem_iff]
    exact h.gone i
  once := h.once
  values := h.values
  admissible := h.admissible

/-- A call is counted when every earlier round has been left. -/
theorem Recorded.enter (h : Recorded n history ins) (t : Nat)
    (hleft : ∀ i, i < (entered history).length / n * n → i ∉ ins.map Prod.fst) :
    Recorded n (history ++ [.enter t]) (((entered history).length, t) :: ins) := by
  have hnew : (entered history).length ∉ ins.map Prod.fst := by
    intro hm
    obtain ⟨u, hu, he⟩ := List.mem_map.mp hm
    have hlt := h.lt hu
    omega
  have hent : entered (history ++ [.enter t]) = entered history ++ [t] := by simp
  have hlft : left (history ++ [.enter t]) = left history := by simp
  constructor
  · intro u hu
    rw [hent]
    rcases List.mem_cons.mp hu with rfl | hu
    · simp
    · rw [List.getElem?_append_left (h.lt hu)]
      exact h.inside u hu
  · exact List.nodup_cons.mpr ⟨hnew, h.distinct⟩
  · intro i
    have hgone := h.gone i
    rw [hlft, hent, List.map_cons, List.mem_cons, List.length_append, List.length_singleton, hgone]
    constructor
    · intro hold
      exact ⟨by omega, fun hm => hm.elim (by omega) hold.2⟩
    · intro hall
      have hne : i ≠ (entered history).length := fun he => hall.2 (Or.inl he)
      exact ⟨by omega, fun hm => hall.2 (Or.inr hm)⟩
  · rw [hlft]
    exact h.once
  · rw [hlft]
    exact h.values
  · refine admissible_append h.admissible fun i hi => (h.gone i).mpr ⟨?_, hleft i hi⟩
    exact Nat.lt_of_lt_of_le hi (Nat.div_mul_le_self _ _)

/-- A call returns when its round is complete. -/
theorem Recorded.leave (h : Recorded n history ((k, t) :: ins))
    (hround : (k / n + 1) * n ≤ (entered history).length) :
    Recorded n (history ++ [.leave t k (valueOf n k)]) ins := by
  have hent : entered (history ++ [.leave t k (valueOf n k)]) = entered history := by simp
  have hlft : left (history ++ [.leave t k (valueOf n k)]) = left history ++ [(k, valueOf n k)] := by simp
  have hk : k < (entered history).length := h.lt (List.mem_cons_self ..)
  have hnot : k ∉ (left history).map Prod.fst := by
    rw [h.gone k]
    simp
  obtain ⟨hfresh, hdistinct⟩ := List.nodup_cons.mp h.distinct
  constructor
  · intro u hu
    rw [hent]
    exact h.inside u (List.mem_cons_of_mem _ hu)
  · exact hdistinct
  · intro i
    have hgone := h.gone i
    rw [List.map_cons, List.mem_cons] at hgone
    rw [hlft, hent, List.map_append, List.mem_append, List.map_singleton, List.mem_singleton, hgone]
    constructor
    · intro hor
      rcases hor with hold | rfl
      · exact ⟨hold.1, fun hm => hold.2 (Or.inr hm)⟩
      · exact ⟨hk, hfresh⟩
    · intro hall
      by_cases he : i = k
      · exact Or.inr he
      · exact Or.inl ⟨hall.1, fun hm => hm.elim he hall.2⟩
  · rw [hlft, List.map_append, List.map_singleton]
    refine List.nodup_append.mpr ⟨h.once, by simp, fun a ha b hb => ?_⟩
    rw [List.mem_singleton.mp hb]
    exact ne_of_mem_of_not_mem ha hnot
  · intro l hl
    rw [hlft, List.mem_append, List.mem_singleton] at hl
    rcases hl with hl | rfl
    · exact h.values l hl
    · rfl
  · exact admissible_append h.admissible ⟨h.inside (k, t) (List.mem_cons_self ..), hround, hnot⟩

/-! ## Words -/

theorem toNat_barrierFlag : barrierFlag.toNat = 2147483648 := by decide

theorem toNat_one : (1 : BitVec 32).toNat = 1 := rfl

theorem toNat_flag_pred : (barrierFlag - 1).toNat = 2147483647 := by decide

/-! ## Waiting threads -/

theorem insides_gate (parked : List (Nat × Place)) (t : Nat) :
    insides (parked ++ [(t, .gate)]) = insides parked := by
  simp [insides]

theorem insides_inside (parked : List (Nat × Place)) (t k : Nat) :
    insides (parked ++ [(t, .inside k)]) = insides parked ++ [(k, t)] := by
  simp [insides]

theorem insides_pull_gate {parked rest : List (Nat × Place)} (h : pull t parked = some (.gate, rest)) :
    insides rest = insides parked := by
  obtain ⟨x, y, rfl, rfl⟩ := pull_split h
  simp [insides]

theorem insides_pull_inside {parked rest : List (Nat × Place)} {k : Nat}
    (h : pull t parked = some (.inside k, rest)) : (insides parked).Perm ((k, t) :: insides rest) := by
  obtain ⟨x, y, rfl, rfl⟩ := pull_split h
  simp only [insides, List.filterMap_append, List.filterMap_cons]
  exact List.perm_middle

/-- Threads that wait in the first loop do not matter, nor does the order of the others. -/
theorem Kept.perm {parked : List (Nat × Place)} (h : Kept n this r)
    (hp : (insides parked).Perm (insides this.parked)) : Kept n { this with parked := parked } r where
  gatenum := h.gatenum
  phase := by
    change Phase n this.current.toNat r _ (insides parked).length
    rw [hp.length_eq]
    exact h.phase
  bounds := fun u hu => h.bounds u (hp.mem_iff.mp hu)
  recorded := h.recorded.perm hp

theorem kept_make (hn : 0 < n) : Kept n (makeBarrier n) 0 where
  gatenum := rfl
  phase := by
    have hphase := Phase.filling 0 0 hn
    rwa [Nat.zero_mul] at hphase
  bounds := by simp [makeBarrier, insides]
  recorded := recorded_nil n

/-! ## Entering -/

/-- Behind the first loop a round is open and not full. -/
theorem Kept.room (h : Kept n this r) (hn : 0 < n) (h2 : n < 2 ^ 31) (hgate : ¬ barrierFlag < this.current) :
    ∃ c, c < n ∧ (if this.current = barrierFlag then 0 else this.current).toNat = c ∧
      (entered this.history).length = r * n + c ∧ (insides this.parked).length = c := by
  have hphase := h.phase
  have hflag := toNat_barrierFlag
  rw [BitVec.lt_def] at hgate
  simp only [← BitVec.toNat_inj]
  generalize hw : this.current.toNat = w at hphase hgate
  generalize (entered this.history).length = e at hphase
  generalize (insides this.parked).length = i at hphase
  have hcur := this.current.isLt
  cases hphase with
  | filling _ c hc =>
    refine ⟨_, hc, ?_, rfl, rfl⟩
    rw [if_neg (by omega)]
    exact hw
  | opened _ => exact ⟨0, hn, by simp, rfl, rfl⟩
  | draining _ m hm hroom => omega

theorem div_of_round {i : Nat} (h : r * n ≤ i) (h' : i < r * n + n) : i / n = r := by
  have hn : 0 < n := by omega
  refine Nat.div_eq_of_lt_le h ?_
  rw [Nat.succ_mul]
  exact h'

/-- The entry of a call, as recorded. -/
theorem Kept.record_enter (h : Kept n this r) (t : Nat) {c : Nat} (hc : c < n)
    (he : (entered this.history).length = r * n + c) :
    Recorded n (this.history ++ [.enter t]) ((r * n + c, t) :: insides this.parked) := by
  rw [← he]
  refine h.recorded.enter t fun i hi hm => ?_
  obtain ⟨u, hu, rfl⟩ := List.mem_map.mp hm
  have hlo := (h.bounds u hu).1
  rw [he, div_of_round (Nat.le_add_right _ _) (by omega)] at hi
  omega

/-- The word when the last thread of a round enters. -/
theorem toNat_last {w : BitVec 32} {c : Nat} (hw : w.toNat = c + 1) (hc : c < 2147483648) :
    (w + (barrierFlag - 1)).toNat = barrierFlag.toNat + c := by
  rw [BitVec.toNat_add, hw, toNat_flag_pred, toNat_barrierFlag]
  omega

theorem eq_ofNat_iff {w : BitVec 32} {c : Nat} (hw : w.toNat = c) (hn : n < 2147483648) :
    w = BitVec.ofNat 32 n ↔ c = n := by
  rw [← BitVec.toNat_inj, hw, BitVec.toNat_ofNat, Nat.mod_eq_of_lt (by omega)]

/-- The last thread of a round opens it and leaves. -/
theorem Kept.enter_last (h : Kept n this r) (t : Nat) {w : BitVec 32} {c : Nat}
    (hlast : c + 1 = n) (hw : w.toNat = barrierFlag.toNat + c)
    (he : (entered this.history).length = r * n + c) (hi : (insides this.parked).length = c) :
    ∃ r', Kept n (leave { this with current := w, history := this.history ++ [.enter t] } t
      (r * n + c) serialThread) r' := by
  have hrec := h.record_enter t (by omega) he
  have hvalue : serialThread = valueOf n (r * n + c) := by
    rw [valueOf, mod_of_round (Nat.le_add_right _ _) (by omega), if_pos (by omega)]
  have hround : ((r * n + c) / n + 1) * n ≤ (entered (this.history ++ [.enter t])).length := by
    rw [div_of_round (Nat.le_add_right _ _) (by omega), Nat.succ_mul, entered_append, entered_enter,
      List.length_append, List.length_singleton, he]
    omega
  have hleave := hrec.leave hround
  rw [← hvalue] at hleave
  have hent : (entered (this.history ++ [.enter t] ++ [.leave t (r * n + c) serialThread])).length =
      r * n + n := by
    simp only [entered_append, entered_leave, entered_enter, List.append_nil, List.length_append,
      List.length_singleton, he]
    omega
  by_cases hone : c = 0
  · have hnil : insides this.parked = [] := List.length_eq_zero_iff.mp (hi.trans hone)
    refine ⟨r + 1, h.gatenum, ?_, by simp [leave, hnil], hleave⟩
    change Phase n w.toNat (r + 1) (entered (_ ++ [_])).length (insides this.parked).length
    rw [hent, hw, hi, hone, Nat.add_zero, ← Nat.succ_mul]
    exact .opened (r + 1)
  · refine ⟨r, h.gatenum, ?_, h.bounds, hleave⟩
    change Phase n w.toNat r (entered (_ ++ [_])).length (insides this.parked).length
    rw [hent, hw, hi]
    exact .draining r c (by omega) (by omega)

/-- Every other thread waits inside. -/
theorem Kept.enter_waits (h : Kept n this r) (t : Nat) {w : BitVec 32} {c : Nat} (hc : c + 1 < n)
    (hw : w.toNat = c + 1) (he : (entered this.history).length = r * n + c)
    (hi : (insides this.parked).length = c) :
    Kept n (park { this with current := w, history := this.history ++ [.enter t] } t
      (.inside (r * n + c))) r := by
  have hrec := h.record_enter t (by omega) he
  have hins := insides_inside this.parked t (r * n + c)
  constructor
  · exact h.gatenum
  · change Phase n w.toNat r (entered (this.history ++ [.enter t])).length
      (insides (this.parked ++ [(t, .inside (r * n + c))])).length
    rw [hins, List.length_append, hi, hw, entered_append, entered_enter, List.length_append, he]
    exact .filling r (c + 1) hc
  · change ∀ u ∈ insides (this.parked ++ [(t, .inside (r * n + c))]), _
    rw [hins]
    intro u hu
    rcases List.mem_append.mp hu with hu | hu
    · exact h.bounds u hu
    · rw [List.mem_singleton.mp hu]
      exact ⟨Nat.le_add_right _ _, by omega⟩
  · change Recorded n _ (insides (this.parked ++ [(t, .inside (r * n + c))]))
    rw [hins]
    exact hrec.perm List.perm_append_comm

theorem barrierEnter_kept (h : Kept n this r) (hn : 0 < n) (h2 : n < 2 ^ 31)
    (hgate : ¬ barrierFlag < this.current) (t : Nat) : ∃ r', Kept n (barrierEnter this t) r' := by
  obtain ⟨c, hc, hw, he, hi⟩ := h.room hn h2 hgate
  have hw1 : ((if this.current = barrierFlag then 0 else this.current) + 1).toNat = c + 1 := by
    rw [BitVec.toNat_add, hw, toNat_one]
    omega
  have hfull := eq_ofNat_iff hw1 h2
  rw [← h.gatenum] at hfull
  simp only [barrierEnter, he]
  by_cases hlast : c + 1 = n
  · rw [if_pos (hfull.mpr hlast)]
    exact h.enter_last t hlast (toNat_last hw1 (by omega)) he hi
  · rw [if_neg (fun hw => hlast (hfull.mp hw))]
    have hlt : (if this.current = barrierFlag then 0 else this.current) + 1 < barrierFlag := by
      rw [BitVec.lt_def, hw1, toNat_barrierFlag]
      omega
    rw [barrierInside, if_pos hlt]
    exact ⟨r, h.enter_waits t (by omega) hw1 he hi⟩

theorem barrierGate_kept (h : Kept n this r) (hn : 0 < n) (h2 : n < 2 ^ 31) (t : Nat) :
    ∃ r', Kept n (barrierGate this t) r' := by
  rw [barrierGate]
  by_cases hgate : barrierFlag < this.current
  · rw [if_pos hgate]
    exact ⟨r, h.perm (by rw [insides_gate])⟩
  · rw [if_neg hgate]
    exact barrierEnter_kept h hn h2 hgate t

/-! ## Leaving -/

/-- While a thread is inside and the flag is set, the round drains. -/
theorem Kept.draining (h : Kept n this r) (h2 : n < 2 ^ 31) {u : Nat × Nat} (hu : u ∈ insides this.parked)
    (hflag : ¬ this.current < barrierFlag) :
    ∃ m, m + 1 < n ∧ this.current.toNat = barrierFlag.toNat + (m + 1) ∧
      (entered this.history).length = r * n + n ∧ (insides this.parked).length = m + 1 := by
  have hphase := h.phase
  have hpos := List.length_pos_of_mem hu
  rw [BitVec.lt_def] at hflag
  have hvalue := toNat_barrierFlag
  generalize this.current.toNat = w at hphase hflag ⊢
  generalize (entered this.history).length = e at hphase ⊢
  generalize (insides this.parked).length = i at hphase hpos ⊢
  cases hphase with
  | filling _ c hc => omega
  | opened _ => omega
  | draining _ m hm hroom =>
    obtain ⟨m', rfl⟩ : ∃ m', i = m' + 1 := ⟨i - 1, by omega⟩
    exact ⟨m', hroom, rfl, rfl, rfl⟩

/-- A thread that returns from the wait of the second loop waits again, or leaves. -/
theorem barrierInside_kept {rest : List (Nat × Place)} (h : Kept n this r) (h2 : n < 2 ^ 31)
    (hpull : pull t this.parked = some (.inside k, rest)) :
    ∃ r', Kept n (barrierInside { this with parked := rest } t k) r' := by
  have hperm := insides_pull_inside hpull
  have hu : (k, t) ∈ insides this.parked := hperm.mem_iff.mpr (List.mem_cons_self ..)
  rw [barrierInside]
  by_cases hlt : this.current < barrierFlag
  · refine ⟨r, ?_⟩
    rw [if_pos hlt]
    refine h.perm ?_
    change (insides (rest ++ [(t, .inside k)])).Perm _
    rw [insides_inside]
    exact List.perm_append_comm.trans hperm.symm
  · obtain ⟨m, hm, hw, he, hi⟩ := h.draining h2 hu hlt
    obtain ⟨hlo, hhi⟩ := h.bounds (k, t) hu
    have hvalue : (0 : Int) = valueOf n k := by
      rw [valueOf, mod_of_round hlo (by omega), if_neg (by omega)]
    have hround : (k / n + 1) * n ≤ (entered this.history).length := by
      rw [div_of_round hlo (by omega), Nat.succ_mul, he]
    have hleave := (h.recorded.perm hperm.symm).leave hround
    rw [← hvalue] at hleave
    have hent : (entered (this.history ++ [.leave t k 0])).length = r * n + n := by
      rw [entered_append, entered_leave, List.append_nil, he]
    have hrest : (insides rest).length = m := by
      have hlen := hperm.length_eq
      rw [hi, List.length_cons] at hlen
      omega
    have hcur : (this.current - 1).toNat = barrierFlag.toNat + m := by
      have hcur := this.current.isLt
      have hflag := toNat_barrierFlag
      rw [BitVec.toNat_sub, hw, toNat_one]
      omega
    rw [if_neg hlt]
    generalize this.current - 1 = w at hcur
    by_cases hzero : m = 0
    · have hnil : insides rest = [] := List.length_eq_zero_iff.mp (hrest.trans hzero)
      refine ⟨r + 1, h.gatenum, ?_, by simp [leave, hnil], hleave⟩
      change Phase n w.toNat (r + 1) (entered (this.history ++ [.leave t k 0])).length (insides rest).length
      rw [hent, hcur, hrest, hzero, Nat.add_zero, ← Nat.succ_mul]
      exact .opened (r + 1)
    · refine ⟨r, h.gatenum, ?_, fun u hu' => h.bounds u (hperm.mem_iff.mpr (List.mem_cons_of_mem _ hu')), hleave⟩
      change Phase n w.toNat r (entered (this.history ++ [.leave t k 0])).length (insides rest).length
      rw [hent, hcur, hrest]
      exact .draining r m (by omega) (by omega)

/-! ## Runs -/

/-- The invariant, whatever the round. -/
def KeptSome (n : Nat) (this : Barrier) : Prop := ∃ r, Kept n this r

theorem barrierStep_kept (hn : 0 < n) (h2 : n < 2 ^ 31) (this : Barrier) (s : Step) (this' : Barrier)
    (o : Unit) (h : KeptSome n this) (hstep : barrierStep this s = some (this', o)) : KeptSome n this' := by
  obtain ⟨r, h⟩ := h
  cases s with
  | call t =>
    simp only [barrierStep] at hstep
    split at hstep
    · cases hstep
    · cases hstep
      exact barrierGate_kept h hn h2 t
  | wake t =>
    obtain ⟨⟨place, rest⟩, hpull, he⟩ := Option.map_eq_some_iff.mp hstep
    cases place with
    | gate =>
      cases he
      exact barrierGate_kept (h.perm (by rw [insides_pull_gate hpull])) hn h2 t
    | inside k =>
      cases he
      exact barrierInside_kept h h2 hpull

/-- In every interleaving, with any wakeups, the calls form rounds of `n` in the order
of entry that do not overlap, and one call of each round is told so. -/
theorem barrier_rounds (h1 : 1 ≤ n) (h2 : n < 2 ^ 31) {steps : List Step} {this : Barrier} {os : List Unit}
    (hrun : run barrierStep (makeBarrier n) steps = some (this, os)) : RoundsKept n this.history := by
  have hstep := fun s i s' o h (_ : True) => barrierStep_kept h1 h2 s i s' o h
  obtain ⟨r, h⟩ : KeptSome n this :=
    run_preserves hstep ⟨0, kept_make h1⟩ (guarded_trivial _ _) hrun
  exact h.recorded.rounds h1

/-- A thread enters, the other one completes the round, and the third finds it closed. -/
def threeThreads : Barrier where
  gatenum := 2
  current := barrierFlag + 1
  parked := [(0, .inside 0), (2, .gate)]
  history := [.enter 0, .enter 1, .leave 1 1 serialThread]

theorem barrier_rounds_run : RoundsKept 2 threeThreads.history :=
  have hrun : run barrierStep (makeBarrier 2) [.call 0, .call 1, .call 2] = some (threeThreads, [(), (), ()]) := by
    decide
  barrier_rounds (by decide) (by decide) hrun

end Devclego.Barriers

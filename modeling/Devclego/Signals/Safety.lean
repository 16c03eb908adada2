import Devclego.Signals.Model

/-!
# The puffer as a bounded queue

A call that has tested the puffer and goes on at once finds room or an item. A call
that comes back from `signal_wait` does not test again. If it still finds what it
waited for, the component is a bounded queue; if it does not, the very next access
underruns or overruns the puffer.
-/
namespace Devclego.Signals

open Foundation Foundation.Condition Puffers

variable {α : Type}

/-- Nothing was read from an empty puffer or written to a full one, the counter is in
range, and what was returned is what was accepted first. -/
structure SafeQueue (len : Nat) (this : Sgpuffer α) : Prop where
  reads : this.emptyReads = 0
  writes : this.fullWrites = 0
  count_nonneg : 0 ≤ this.puffer.count
  count_le : this.puffer.count ≤ len
  fifo : this.returned <+: this.accepted.map some

/-- A thread that comes back finds the puffer not empty, or not full. -/
def ResumesReady (this : Sgpuffer α) : Section α → Prop
  | .enter _ _ _ => True
  | .resume thread _ => ∀ r ∈ this.signal.take thread, mustWait this.puffer r.1 = false

instance (this : Sgpuffer α) (s : Section α) : Decidable (ResumesReady this s) :=
  match s with
  | .enter _ _ _ => isTrue trivial
  | .resume thread _ =>
    inferInstanceAs (Decidable (∀ r ∈ this.signal.take thread, mustWait this.puffer r.1 = false))

/-- The puffer stores the queue `q` of the items accepted and not yet returned. -/
structure Sound (len : Nat) (this : Sgpuffer α) (q : List α) : Prop where
  holds : this.puffer.Holds len q
  fifo : this.accepted.map some = this.returned ++ q.map some
  reads : this.emptyReads = 0
  writes : this.fullWrites = 0

variable {len : Nat} {this this' : Sgpuffer α} {q : List α} {wake : Nat}

theorem Sound.safe (h : Sound len this q) : SafeQueue len this where
  reads := h.reads
  writes := h.writes
  count_nonneg := by
    rw [h.holds.count_eq]
    exact Int.natCast_nonneg _
  count_le := by
    rw [h.holds.count_eq]
    exact_mod_cast h.holds.fits
  fifo := by
    rw [h.fifo]
    exact List.prefix_append _ _

/-- The signal is no part of the queue. -/
theorem Sound.withSignal (h : Sound len this q) (signal : Condition (Call α)) :
    Sound len { this with signal := signal } q :=
  ⟨h.holds, h.fifo, h.reads, h.writes⟩

theorem sound_init (hlen : 1 ≤ len) : Sound len (sgpufferInit len : Sgpuffer α) [] where
  holds := Datapuffer.holds_ctor hlen
  fifo := rfl
  reads := rfl
  writes := rfl

theorem mustWait_receiver (h : Sound len this q) (item : α) :
    mustWait this.puffer (.receiver item) = false ↔ q.length < len := by
  have hfull := h.holds.isfull_iff
  have hfits := h.holds.fits
  rw [mustWait, Bool.eq_false_iff, ne_eq, hfull]
  omega

theorem mustWait_supplier (h : Sound len this q) :
    mustWait this.puffer .supplier = false ↔ ∃ x rest, q = x :: rest := by
  rw [mustWait, Bool.eq_false_iff, ne_eq, h.holds.isempty_iff]
  exact List.ne_nil_iff_exists_cons

/-- The end of a section changes the signal only. -/
theorem signal_last {sent : Prop} [Decidable sent]
    (hrun : (if sent then signalSet this wake else some this) = some this') :
    ∃ signal, this' = { this with signal := signal } ∧ SignalIf sent this.signal wake signal := by
  unfold SignalIf
  by_cases hs : sent
  · rw [if_pos hs] at hrun
    obtain ⟨signal, hsig, rfl⟩ := Option.map_eq_some_iff.mp hrun
    exact ⟨signal, rfl, by rw [if_pos hs]; exact hsig⟩
  · rw [if_neg hs] at hrun
    cases hrun
    exact ⟨this.signal, rfl, by rw [if_neg hs]⟩

/-- A receiver call that finds room appends its item, and signals if the queue was
empty. -/
theorem pufferRecv_sound (h : Sound len this q) (hroom : q.length < len) {item : α}
    (hrun : pufferRecv this item wake = some this') :
    Sound len this' (q ++ [item]) ∧ SignalIf (q = []) this.signal wake this'.signal := by
  have hfull : datapufferIsfull this.puffer = false := (mustWait_receiver h item).mpr hroom
  have hwrite : Sound len { this with
      puffer := datapufferWrite this.puffer item, accepted := this.accepted ++ [item] } (q ++ [item]) :=
    ⟨h.holds.write hroom item, by simp [h.fifo], h.reads, h.writes⟩
  simp only [pufferRecv, hfull, Bool.false_eq_true, ↓reduceIte, h.holds.isempty_iff] at hrun
  obtain ⟨signal, rfl, hs⟩ := signal_last hrun
  exact ⟨hwrite.withSignal signal, hs⟩

/-- A supplier call that finds an item returns the oldest, and signals if the queue
was full. -/
theorem pufferSupply_sound {x : α} (h : Sound len this (x :: q))
    (hrun : pufferSupply this wake = some this') :
    Sound len this' q ∧ SignalIf (q.length + 1 = len) this.signal wake this'.signal := by
  have hempty : datapufferIsempty this.puffer = false := (mustWait_supplier h).mpr ⟨x, q, rfl⟩
  have hread : Sound len { this with
      puffer := (datapufferRead this.puffer).1
      returned := this.returned ++ [(datapufferRead this.puffer).2] } q :=
    ⟨h.holds.read, by simp [h.fifo, h.holds.read_result], h.reads, h.writes⟩
  simp only [pufferSupply, hempty, Bool.false_eq_true, ↓reduceIte, h.holds.isfull_iff,
    List.length_cons] at hrun
  obtain ⟨signal, rfl, hs⟩ := signal_last hrun
  exact ⟨hread.withSignal signal, hs⟩

/-- A call that is ready keeps the queue. -/
theorem proceed_sound (h : Sound len this q) {call : Call α} (hready : mustWait this.puffer call = false)
    (hrun : proceed this call wake = some this') : ∃ q', Sound len this' q' := by
  cases call with
  | receiver item => exact ⟨_, (pufferRecv_sound h ((mustWait_receiver h item).mp hready) hrun).1⟩
  | supplier =>
    obtain ⟨x, rest, rfl⟩ := (mustWait_supplier h).mp hready
    exact ⟨rest, (pufferSupply_sound h hrun).1⟩

/-- A call that is not ready misuses the puffer. -/
theorem proceed_misuse {call : Call α} (hwait : mustWait this.puffer call = true)
    (hrun : proceed this call wake = some this') : 0 < this'.emptyReads + this'.fullWrites := by
  cases call with
  | receiver item =>
    change datapufferIsfull this.puffer = true at hwait
    simp only [proceed, pufferRecv, hwait, ↓reduceIte] at hrun
    obtain ⟨signal, rfl, -⟩ := signal_last hrun
    change 0 < this.emptyReads + (this.fullWrites + 1)
    omega
  | supplier =>
    change datapufferIsempty this.puffer = true at hwait
    simp only [proceed, pufferSupply, hwait, ↓reduceIte] at hrun
    obtain ⟨signal, rfl, -⟩ := signal_last hrun
    change 0 < this.emptyReads + 1 + this.fullWrites
    omega

/-- Such a call sends no signal, so it never lacks a thread to wake. -/
theorem proceed_isSome (hlen : 1 ≤ len) (h : Sound len this q) {call : Call α}
    (hwait : mustWait this.puffer call = true) : (proceed this call wake).isSome := by
  cases call with
  | receiver item =>
    have hempty : datapufferIsempty this.puffer = false := by
      rw [Bool.eq_false_iff, ne_eq, h.holds.isempty_iff]
      rintro rfl
      exact absurd (h.holds.isfull_iff.mp hwait) (by simp; omega)
    simp [proceed, pufferRecv, hempty]
  | supplier =>
    have hfull : datapufferIsfull this.puffer = false := by
      rw [Bool.eq_false_iff, ne_eq, h.holds.isfull_iff, h.holds.isempty_iff.mp hwait]
      simp
      omega
    simp [proceed, pufferSupply, hfull]

/-! ## Sections -/

/-- The three things a section can be. -/
inductive Does (this : Sgpuffer α) : Section α → Sgpuffer α → Prop where
  | waits (thread : Nat) (call : Call α) (wake : Nat) (hwait : mustWait this.puffer call = true) :
      Does this (.enter thread call wake) { this with signal := this.signal.wait thread call }
  | enters (thread : Nat) (call : Call α) (wake : Nat) (this' : Sgpuffer α)
      (hready : mustWait this.puffer call = false) (hrun : proceed this call wake = some this') :
      Does this (.enter thread call wake) this'
  | resumes (thread wake : Nat) (call : Call α) (signal : Condition (Call α)) (this' : Sgpuffer α)
      (htake : this.signal.take thread = some (call, signal))
      (hrun : proceed { this with signal := signal } call wake = some this') :
      Does this (.resume thread wake) this'

theorem sectionStep_does {s : Section α} {o : Unit} (h : sectionStep this s = some (this', o)) :
    Does this s this' := by
  cases s with
  | enter thread call wake =>
    simp only [sectionStep] at h
    by_cases hbusy : this.signal.busy thread = true
    · simp [hbusy] at h
    · by_cases hwait : mustWait this.puffer call = true
      · simp only [hbusy, hwait, Bool.false_eq_true, ↓reduceIte, Option.some.injEq, Prod.mk.injEq] at h
        obtain ⟨rfl, -⟩ := h
        exact .waits thread call wake hwait
      · simp only [hbusy, hwait, Bool.false_eq_true, ↓reduceIte, Option.map_eq_some_iff] at h
        obtain ⟨this1, hrun, he⟩ := h
        cases he
        exact .enters thread call wake this' (by simpa using hwait) hrun
  | resume thread wake =>
    simp only [sectionStep, Option.bind_eq_bind, Option.bind_eq_some_iff] at h
    obtain ⟨⟨call, signal⟩, htake, this1, hrun, he⟩ := h
    cases he
    exact .resumes thread wake call signal this' htake hrun

/-- The invariant: some queue is stored. -/
def Queued (len : Nat) (this : Sgpuffer α) : Prop := ∃ q, Sound len this q

theorem section_queued (this : Sgpuffer α) (s : Section α) (this' : Sgpuffer α) (o : Unit)
    (h : Queued len this) (hstep : sectionStep this s = some (this', o)) :
    (ResumesReady this s → Queued len this') ∧ (SafeQueue len this' → ResumesReady this s) := by
  obtain ⟨q, h⟩ := h
  cases sectionStep_does hstep with
  | waits thread call wake hwait => exact ⟨fun _ => ⟨q, h.withSignal _⟩, fun _ => trivial⟩
  | enters thread call wake _ hready hrun => exact ⟨fun _ => proceed_sound h hready hrun, fun _ => trivial⟩
  | resumes thread wake call signal _ htake hrun =>
    constructor
    · exact fun hready => proceed_sound (h.withSignal signal) (hready (call, signal) htake) hrun
    · intro hsafe r hr
      cases htake.symm.trans hr
      by_contra hwait
      have hmisuse := proceed_misuse (by simpa using hwait) hrun
      have hreads := hsafe.reads
      have hwrites := hsafe.writes
      omega

theorem fault_resumesReady (hlen : 1 ≤ len) (this : Sgpuffer α) (s : Section α) (h : Queued len this)
    (hfault : sectionStep this s = none) : ResumesReady this s := by
  obtain ⟨q, h⟩ := h
  cases s with
  | enter thread call wake => trivial
  | resume thread wake =>
    intro r hr
    obtain ⟨call, signal⟩ := r
    by_contra hwait
    obtain ⟨this', hrun⟩ : ∃ this', proceed { this with signal := signal } call wake = some this' :=
      Option.isSome_iff_exists.mp (proceed_isSome hlen (h.withSignal signal) (by simpa using hwait))
    have htake : this.signal.take thread = some (call, signal) := hr
    simp [sectionStep, htake, hrun] at hfault

/-! ## Runs -/

/-- In every interleaving the component is a safe queue in every state exactly when
every thread that comes back from `signal_wait` finds the puffer ready for it. -/
theorem safe_queue_iff (hlen : 1 ≤ len) (sections : List (Section α)) :
    (∀ k this os, run sectionStep (sgpufferInit len : Sgpuffer α) (sections.take k) = some (this, os) →
      SafeQueue len this) ↔
      Guarded sectionStep ResumesReady (sgpufferInit len : Sgpuffer α) sections := by
  have hinit : Queued len (sgpufferInit len : Sgpuffer α) := ⟨[], sound_init hlen⟩
  exact prefixes_iff_guarded (fun _ ⟨_, h⟩ => h.safe) section_queued (fault_resumesReady hlen) hinit sections

/-- A supplier and a receiver wait in turn at a puffer of length one. -/
theorem safe_queue_iff_run :
    Guarded sectionStep ResumesReady (sgpufferInit 1 : Sgpuffer Int)
        [.enter 0 .supplier 0, .enter 1 (.receiver 7) 0, .enter 1 (.receiver 8) 0, .resume 0 1,
          .resume 1 0] ∧
      ∀ k this os, run sectionStep (sgpufferInit 1 : Sgpuffer Int)
        ([.enter 0 .supplier 0, .enter 1 (.receiver 7) 0, .enter 1 (.receiver 8) 0, .resume 0 1,
          .resume 1 0].take k) = some (this, os) → SafeQueue 1 this := by
  rw [safe_queue_iff (show 1 ≤ 1 by decide), and_self]
  decide

/-- A third thread takes the item before the woken supplier has the mutex again, and
that supplier reads an empty puffer. -/
theorem woken_supplier_reads_empty :
    ∃ this os, run sectionStep (sgpufferInit 1 : Sgpuffer Int)
        [.enter 0 .supplier 0, .enter 1 (.receiver 7) 0, .enter 2 .supplier 0, .resume 0 0] =
          some (this, os) ∧ ¬ SafeQueue 1 this :=
  ⟨_, _, rfl, fun h => absurd h.reads (by decide)⟩

end Devclego.Signals

import Devclego.Foundation.Machine
import Devclego.Puffers.Datapuffer
import Mathlib.Data.List.Forall2

/-!
# A data puffer is a bounded queue

The calls of `lib_puffers.c` on one puffer as the steps of a machine, beside a queue
of at most `len` items. A caller writes only when the puffer is not full and reads
only when it is not empty; nothing else is asked of it.
-/
namespace Devclego.Puffers

open Foundation

variable {α : Type}

/-- `clear` names whether a destructor is given. -/
inductive FifoOp (α : Type) where
  | write (item : α)
  | read
  | peekFirst
  | clear (dtor : Bool)
  | readcapacity
  | writecapacity
  | isfull
  | isempty
deriving DecidableEq, Repr

/-- What a call returns, or for a clear the arguments of the destructor's calls. -/
inductive FifoOut (α : Type) where
  | done
  | item (result : Option α)
  | disposed (arguments : List (Option α))
  | capacity (places : Int)
  | flag (value : Bool)
deriving DecidableEq, Repr

def fifoStep (puffer : Datapuffer α) : FifoOp α → Option (Datapuffer α × FifoOut α)
  | .write item => some (datapufferWrite puffer item, .done)
  | .read => some ((datapufferRead puffer).1, .item (datapufferRead puffer).2)
  | .peekFirst => some (puffer, .item (datapufferPeekFirst puffer))
  | .clear dtor =>
    some ((datapufferClear puffer).1, .disposed (if dtor then (datapufferClear puffer).2 else []))
  | .readcapacity => some (puffer, .capacity (datapufferReadcapacity puffer))
  | .writecapacity => some (puffer, .capacity (datapufferWritecapacity puffer))
  | .isfull => some (puffer, .flag (datapufferIsfull puffer))
  | .isempty => some (puffer, .flag (datapufferIsempty puffer))

/-- The tests that callers make before they write or read. -/
def Offered (puffer : Datapuffer α) : FifoOp α → Prop
  | .write _ => datapufferIsfull puffer = false
  | .read => datapufferIsempty puffer = false
  | _ => True

instance (puffer : Datapuffer α) : (op : FifoOp α) → Decidable (Offered puffer op)
  | .write _ => inferInstanceAs (Decidable (_ = _))
  | .read => inferInstanceAs (Decidable (_ = _))
  | .peekFirst | .clear _ | .readcapacity | .writecapacity | .isfull | .isempty => .isTrue trivial

/-- The bounded queue: its items, oldest first. -/
def fifoSpec (len : Nat) (q : List α) : FifoOp α → List α × FifoOut α
  | .write item => (q ++ [item], .done)
  | .read => (q.tail, .item q.head?)
  | .peekFirst => (q, .item q.head?)
  | .clear dtor => ([], .disposed (if dtor then q.map some else []))
  | .readcapacity => (q, .capacity q.length)
  | .writecapacity => (q, .capacity (len - q.length : Nat))
  | .isfull => (q, .flag (q.length = len))
  | .isempty => (q, .flag q.isEmpty)

namespace Datapuffer

variable {puffer : Datapuffer α} {len : Nat} {q : List α}

theorem Holds.readcapacity (h : puffer.Holds len q) : datapufferReadcapacity puffer = q.length :=
  h.count_eq

theorem Holds.writecapacity (h : puffer.Holds len q) :
    datapufferWritecapacity puffer = (len - q.length : Nat) := by
  have hfits := h.fits
  rw [datapufferWritecapacity, h.absLength_eq, h.count_eq]
  omega

theorem Holds.isfull_eq (h : puffer.Holds len q) : datapufferIsfull puffer = decide (q.length = len) := by
  rw [Bool.eq_iff_iff, h.isfull_iff, decide_eq_true_iff]

theorem Holds.isempty_eq (h : puffer.Holds len q) : datapufferIsempty puffer = q.isEmpty := by
  rw [Bool.eq_iff_iff, h.isempty_iff, List.isEmpty_iff]

theorem Holds.end_lt (h : puffer.Holds len q) : puffer.endIndex < len := by
  have hstart := h.start_lt
  rw [h.end_eq]
  exact Nat.mod_lt _ (by omega)

/-- The slots that hold no item are null. -/
theorem Holds.vacant (h : puffer.Holds len q) {j : Nat} (hj : j < len)
    (hout : ∀ i < q.length, j ≠ (puffer.start + i) % len) : puffer.items[j]? = some none := by
  have hstart := h.start_lt
  obtain ⟨i, hi, he⟩ : ∃ i < len, j = (puffer.start + i) % len := by
    refine ⟨(j + (len - puffer.start)) % len, Nat.mod_lt _ (by omega), ?_⟩
    rw [Nat.add_mod_mod, show puffer.start + (j + (len - puffer.start)) = j + len by omega,
      Nat.add_mod_right, Nat.mod_eq_of_lt hj]
  have hq : q.length ≤ i := Nat.le_of_not_lt fun hlt => hout i hlt he
  have hslot := h.slots i (h.items_length.symm ▸ hi)
  rw [h.items_length, ← he, List.getElem?_eq_none hq] at hslot
  exact hslot

theorem Holds.stored (h : puffer.Holds len q) {i : Nat} (hi : i < q.length) :
    puffer.items[(puffer.start + i) % len]? = some q[i]? := by
  have hfits := h.fits
  have hslot := h.slots i (by rw [h.items_length]; omega)
  rwa [h.items_length] at hslot

end Datapuffer

variable {puffer : Datapuffer α} {len : Nat} {q : List α}

/-- One call from a puffer that holds a queue. -/
theorem fifoStep_follows (h : puffer.Holds len q) {op : FifoOp α} (hop : Offered puffer op) :
    ∃ puffer' out, fifoStep puffer op = some (puffer', out) ∧
      puffer'.Holds len (fifoSpec len q op).1 ∧ out = (fifoSpec len q op).2 := by
  cases op with
  | write item =>
    have hroom : q.length ≠ len := by
      simpa only [Offered, h.isfull_eq, decide_eq_false_iff_not] using hop
    have hlt : q.length < len := Nat.lt_of_le_of_ne h.fits hroom
    exact ⟨_, _, rfl, h.write hlt item, rfl⟩
  | read =>
    cases q with
    | nil =>
      have hempty : datapufferIsempty puffer = false := hop
      rw [h.isempty_eq] at hempty
      cases hempty
    | cons x q => exact ⟨_, _, rfl, h.read, congrArg FifoOut.item h.read_result⟩
  | peekFirst => exact ⟨_, _, rfl, h, congrArg FifoOut.item h.peek_result⟩
  | clear dtor =>
    obtain ⟨hclear, hpassed⟩ := h.clear
    refine ⟨_, _, rfl, hclear, ?_⟩
    show FifoOut.disposed _ = FifoOut.disposed _
    rw [hpassed]
  | readcapacity => exact ⟨_, _, rfl, h, congrArg FifoOut.capacity h.readcapacity⟩
  | writecapacity => exact ⟨_, _, rfl, h, congrArg FifoOut.capacity h.writecapacity⟩
  | isfull => exact ⟨_, _, rfl, h, congrArg FifoOut.flag h.isfull_eq⟩
  | isempty => exact ⟨_, _, rfl, h, congrArg FifoOut.flag h.isempty_eq⟩

/-- A puffer of length `len` that stores `q`, slot by slot. -/
structure Placed (puffer : Datapuffer α) (len : Nat) (q : List α) : Prop where
  start_lt : puffer.start < len
  end_lt : puffer.endIndex < len
  count_eq : puffer.count = q.length
  end_eq : puffer.endIndex = (puffer.start + puffer.count.toNat) % len
  stored : ∀ i < q.length, puffer.items[(puffer.start + i) % len]? = some q[i]?
  vacant : ∀ j < len, (∀ i < q.length, j ≠ (puffer.start + i) % len) → puffer.items[j]? = some none

theorem Datapuffer.Holds.placed (h : puffer.Holds len q) : Placed puffer len q where
  start_lt := h.start_lt
  end_lt := h.end_lt
  count_eq := h.count_eq
  end_eq := by rw [h.count_eq, Int.toNat_natCast]; exact h.end_eq
  stored := fun _ hi => h.stored hi
  vacant := fun _ hj hout => h.vacant hj hout

/-- Every sequence of calls from a new puffer returns what the bounded queue returns,
and leaves the queue's items in their slots and null in all others. -/
theorem datapuffer_is_fifo (hlen : 1 ≤ len) (ops : List (FifoOp α))
    (hops : Guarded fifoStep Offered (datapufferCtor len) ops) :
    ∃ puffer, run fifoStep (datapufferCtor len) ops = some (puffer, (specRun (fifoSpec len) [] ops).2) ∧
      Placed puffer len (specRun (fifoSpec len) [] ops).1 := by
  have hctor : (datapufferCtor len : Datapuffer α).Holds len [] := Datapuffer.holds_ctor hlen
  have hstep : ∀ (s : Datapuffer α) (a : List α) (op : FifoOp α), s.Holds len a → Offered s op →
      ∃ s' o, fifoStep s op = some (s', o) ∧ s'.Holds len (fifoSpec len a op).1 ∧
        o = (fifoSpec len a op).2 :=
    fun s a op h hop => fifoStep_follows h hop
  obtain ⟨puffer, outs, hrun, hholds, houts⟩ := run_refines hstep hctor hops
  rw [List.forall₂_eq_eq_eq] at houts
  subst houts
  exact ⟨puffer, hrun, hholds.placed⟩

/-- Two writes fill a puffer of length two; the reads and the clear after them return
the items in their order. -/
theorem datapuffer_is_fifo_run :
    ∃ puffer, run fifoStep (datapufferCtor 2 : Datapuffer Nat)
        [.write 5, .write 6, .peekFirst, .read, .write 7, .writecapacity, .clear true] =
          some (puffer, [.done, .done, .item (some 5), .item (some 5), .done, .capacity 0,
            .disposed [some 6, some 7]]) ∧
      Placed puffer 2 [] :=
  datapuffer_is_fifo (by decide) _ (by decide)

end Devclego.Puffers

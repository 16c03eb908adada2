import Devclego.Puffers.Datapuffer
import Mathlib.Logic.Function.Basic

/-!
# Recycle puffers

The receiver and the supplier that `CMP_DEF_RECPUFFER` defines, one statement a step,
for any number of threads. The spin lock is taken by a step that is possible when it
is free. The item constructor's result is chosen by the environment. Beside the
component the state keeps what became of the items: who holds which, which exist,
which were cleaned since they were last given back, and what every give-back led to.
-/
namespace Devclego.Puffers

variable {ι : Type}

/-- The statement a thread stands before. `call` numbers the receiver calls. -/
inductive Pc (ι : Type) where
  | idle
  | receiverLock (item : ι) (call : Nat)
  | receiverTest (item : ι) (call : Nat)
  | receiverFull (item : ι) (call : Nat)
  | receiverDtor (item : ι) (call : Nat)
  | receiverClean (item : ι) (call : Nat)
  | receiverWrite (item : ι) (call : Nat)
  | receiverUnlock
  | supplierLock
  | supplierTest
  | supplierEmpty
  | supplierCtor
  | supplierRead
  | supplierUnlock (result : Option ι)
deriving DecidableEq, Repr

inductive Fate where
  | pooled
  | destroyed
deriving DecidableEq, Repr

/-- What a receiver call did with its item. -/
structure Settled (ι : Type) where
  call : Nat
  item : ι
  fate : Fate
deriving DecidableEq, Repr

structure Recycler (ι : Type) where
  spin : Option Nat
  puffer : Datapuffer ι
  pc : Nat → Pc ι
  held : Nat → List ι
  existing : ι → Bool
  clean : ι → Bool
  returned : List ι
  settled : List (Settled ι)

/-- `receive` and `supply` are calls, `pass` hands an item to another caller, `advance`
runs one statement; `fresh` is what the item constructor returns there. -/
inductive Act (ι : Type) where
  | receive (t : Nat) (item : ι)
  | supply (t : Nat)
  | pass (t u : Nat) (item : ι)
  | advance (t : Nat) (fresh : ι)
deriving DecidableEq, Repr

def initRecycler (len : Nat) : Recycler ι where
  spin := none
  puffer := datapufferCtor len
  pc := fun _ => .idle
  held := fun _ => []
  existing := fun _ => false
  clean := fun _ => false
  returned := []
  settled := []

variable [DecidableEq ι]

namespace Recycler

def setPc (s : Recycler ι) (t : Nat) (pc : Pc ι) : Recycler ι :=
  { s with pc := Function.update s.pc t pc }

/-- One statement of a thread. Cleaning or destroying an item that does not exist faults. -/
def advance (s : Recycler ι) (t : Nat) (fresh : ι) : Option (Recycler ι) :=
  match s.pc t with
  | .idle => none
  | .receiverLock item call => some { s.setPc t (.receiverTest item call) with spin := some t }
  | .receiverTest item call =>
    some (s.setPc t
      (if datapufferIsfull s.puffer then .receiverFull item call else .receiverClean item call))
  | .receiverFull item call => some { s.setPc t (.receiverDtor item call) with spin := none }
  | .receiverDtor item call =>
    if s.existing item then
      some { s.setPc t .idle with
        existing := Function.update s.existing item false
        settled := s.settled ++ [⟨call, item, .destroyed⟩] }
    else none
  | .receiverClean item call =>
    if s.existing item then
      some { s.setPc t (.receiverWrite item call) with clean := Function.update s.clean item true }
    else none
  | .receiverWrite item call =>
    some { s.setPc t .receiverUnlock with
      puffer := datapufferWrite s.puffer item
      settled := s.settled ++ [⟨call, item, .pooled⟩] }
  | .receiverUnlock => some { s.setPc t .idle with spin := none }
  | .supplierLock => some { s.setPc t .supplierTest with spin := some t }
  | .supplierTest =>
    some (s.setPc t (if datapufferIsempty s.puffer then .supplierEmpty else .supplierRead))
  | .supplierEmpty => some { s.setPc t .supplierCtor with spin := none }
  | .supplierCtor =>
    some { s.setPc t .idle with
      existing := Function.update s.existing fresh true
      held := Function.update s.held t (fresh :: s.held t) }
  | .supplierRead =>
    some { s.setPc t (.supplierUnlock (datapufferRead s.puffer).2) with
      puffer := (datapufferRead s.puffer).1 }
  | .supplierUnlock result =>
    some { s.setPc t .idle with
      spin := none
      held := Function.update s.held t (result.toList ++ s.held t) }

end Recycler

def recycleStep (s : Recycler ι) : Act ι → Option (Recycler ι × Unit)
  | .receive t item =>
    some ({ s.setPc t (.receiverLock item s.returned.length) with
      held := Function.update s.held t ((s.held t).erase item)
      clean := Function.update s.clean item false
      returned := s.returned ++ [item] }, ())
  | .supply t => some (s.setPc t .supplierLock, ())
  | .pass t u item =>
    let held := Function.update s.held t ((s.held t).erase item)
    some ({ s with held := Function.update held u (item :: held u) }, ())
  | .advance t fresh => (s.advance t fresh).map (·, ())

/-- The lock is taken when it is free, and the constructor returns an item that does
not exist. -/
def Recycler.runs (s : Recycler ι) (fresh : ι) : Pc ι → Bool
  | .idle => false
  | .receiverLock _ _ | .supplierLock => s.spin.isNone
  | .supplierCtor => !s.existing fresh
  | _ => true

/-- A caller gives back or passes on what it holds, one call at a time. -/
def Enabled (s : Recycler ι) : Act ι → Prop
  | .receive t item => s.pc t = .idle ∧ item ∈ s.held t
  | .supply t => s.pc t = .idle
  | .pass t _ item => item ∈ s.held t
  | .advance t fresh => s.runs fresh (s.pc t) = true

instance (s : Recycler ι) : (act : Act ι) → Decidable (Enabled s act)
  | .receive _ _ => inferInstanceAs (Decidable (_ ∧ _))
  | .supply _ => inferInstanceAs (Decidable (_ = _))
  | .pass _ _ _ => inferInstanceAs (Decidable (_ ∈ _))
  | .advance _ _ => inferInstanceAs (Decidable (_ = _))

end Devclego.Puffers

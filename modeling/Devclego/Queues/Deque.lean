import Mathlib.Algebra.Group.Int.Defs
import Mathlib.Algebra.Group.Nat.Defs
import Devclego.Queues.Model

/-!
# The queue as a deque

Pushes, peeks and `queue_pop_head` keep the list well linked. So does
`queue_pop_tail`, except on a queue of one element: it clears `tail` twice and
leaves `head` at the freed node. The counter is right as long as it does not
overflow.
-/
namespace Devclego.Queues

open Foundation

variable {α : Type}

/-- The queue in memory is the deque `xs`. -/
structure Stores (this : Queue) (mem : Mem α) (xs : List α) : Prop where
  counter : this.counter.toInt = xs.length
  linked : ∃ nodes : List (Addr × α), nodes.map Prod.snd = xs ∧ (nodes.map Prod.fst).Nodup ∧
    Linked Dlist.mk mem none nodes none ∧ this.head = headPtr nodes none ∧ this.tail = lastPtr none nodes
  head_null : this.head = none ↔ xs = []
  tail_null : this.tail = none ↔ xs = []
  head_live : ∀ a ∈ this.head, (mem.read a).isSome
  tail_live : ∀ a ∈ this.tail, (mem.read a).isSome

/-- A queue beside the deque it should be, with everything returned so far by either. -/
structure Compared (α : Type) where
  queue : Queue
  mem : Mem α
  deque : List α
  returned : List (Option α)
  expected : List (Option α)

def compareStep (s : Compared α) (o : Op α) : Option (Compared α × Unit) :=
  (exec (s.queue, s.mem) o).map fun r =>
    ({ queue := r.1.1
       mem := r.1.2
       deque := (dequeStep s.deque o).1
       returned := s.returned ++ [r.2]
       expected := s.expected ++ [(dequeStep s.deque o).2] }, ())

/-- The queue has behaved as the deque, and still is it. -/
structure IsDeque (s : Compared α) : Prop where
  returned : s.returned = s.expected
  stores : Stores s.queue s.mem s.deque

/-- No `queue_pop_tail` takes the only element, and no push overflows the counter. -/
def Handled (s : Compared α) : Op α → Prop
  | .pushHead _ | .pushTail _ => s.deque.length + 1 < 2 ^ 31
  | .popTail => s.deque.length ≠ 1
  | _ => True

instance (s : Compared α) : ∀ o, Decidable (Handled s o)
  | .pushHead _ | .pushTail _ => inferInstanceAs (Decidable (_ < _))
  | .popTail => inferInstanceAs (Decidable (_ ≠ _))
  | .popHead | .peekHead | .peekTail => isTrue trivial

/-- The representation with its nodes. -/
structure Chain (this : Queue) (mem : Mem α) (nodes : List (Addr × α)) : Prop where
  counter : this.counter = BitVec.ofNat 32 nodes.length
  short : nodes.length < 2 ^ 31
  distinct : (nodes.map Prod.fst).Nodup
  linked : Linked Dlist.mk mem none nodes none
  head : this.head = headPtr nodes none
  tail : this.tail = lastPtr none nodes

/-- The representation whatever the length, with a counter that may have wrapped. -/
structure Links (this : Queue) (mem : Mem α) (nodes : List (Addr × α)) : Prop where
  counter : this.counter = BitVec.ofNat 32 nodes.length
  distinct : (nodes.map Prod.fst).Nodup
  linked : Linked Dlist.mk mem none nodes none
  head : this.head = headPtr nodes none
  tail : this.tail = lastPtr none nodes

variable {this : Queue} {mem : Mem α} {nodes : List (Addr × α)}

theorem Chain.links (h : Chain this mem nodes) : Links this mem nodes :=
  ⟨h.counter, h.distinct, h.linked, h.head, h.tail⟩

theorem Links.chain (h : Links this mem nodes) (hshort : nodes.length < 2 ^ 31) : Chain this mem nodes :=
  ⟨h.counter, hshort, h.distinct, h.linked, h.head, h.tail⟩

theorem toInt_ofNat {n : Nat} (h : n < 2 ^ 31) : (BitVec.ofNat 32 n).toInt = n := by
  rw [BitVec.toInt_ofNat', Int.bmod_eq_of_le (by omega) (by omega)]

theorem Chain.stores (h : Chain this mem nodes) : Stores this mem (nodes.map Prod.snd) where
  counter := by rw [h.counter, toInt_ofNat h.short, List.length_map]
  linked := ⟨nodes, rfl, h.distinct, h.linked, h.head, h.tail⟩
  head_null := by rw [h.head, headPtr_eq_none_iff, List.map_eq_nil_iff]
  tail_null := by rw [h.tail, lastPtr_eq_none_iff, List.map_eq_nil_iff]
  head_live := by
    intro a ha
    rw [h.head] at ha
    cases nodes with
    | nil => cases ha
    | cons x xs =>
      cases ha
      exact h.linked.live x.1 (by simp)
  tail_live := by
    intro a ha
    rw [h.tail] at ha
    rcases List.eq_nil_or_concat nodes with rfl | ⟨ys, y, rfl⟩
    · cases ha
    · rw [List.concat_eq_append, lastPtr_concat] at ha
      cases ha
      exact h.linked.live y.1 (by simp)

theorem chain_make (mem : Mem α) : Chain makeQueue mem [] where
  counter := rfl
  short := Nat.two_pow_pos 31
  distinct := List.nodup_nil
  linked := trivial
  head := rfl
  tail := rfl

/-! ## Pushes -/

/-- A push, as far as counter and addresses are concerned. -/
theorem Links.fresh (h : Links this mem nodes) (data : α) :
    Linked Dlist.mk (makeDlist mem data).1 none nodes none ∧ mem.size ∉ nodes.map Prod.fst ∧
      (makeDlist mem data).1.read mem.size = some ⟨data, none, none⟩ := by
  have hfresh := h.linked.size_not_mem
  refine ⟨h.linked.congr fun a ha => ?_, hfresh, mem.read_alloc_self _⟩
  exact mem.read_alloc_ne _ (ne_of_mem_of_not_mem ha hfresh)

/-- The last node is none of the others. -/
theorem Links.counter_push (h : Links this mem nodes) :
    this.counter + 1 = BitVec.ofNat 32 (nodes.length + 1) := by
  rw [h.counter, BitVec.ofNat_add]
  rfl

theorem Links.pushHead (h : Links this mem nodes) (data : α) :
    ∃ this' mem' a, queuePushHead this mem data = some (this', mem') ∧
      Links this' mem' ((a, data) :: nodes) := by
  obtain ⟨hlinked, hfresh, hread⟩ := h.fresh data
  have hcounter := h.counter_push
  cases nodes with
  | nil =>
    have hhead : this.head = none := h.head
    refine ⟨{ head := some mem.size, tail := some mem.size, counter := this.counter + 1 },
      (makeDlist mem data).1, mem.size, by rw [queuePushHead, hhead]; rfl, ?_⟩
    exact ⟨hcounter, by simp, ⟨hread, trivial⟩, rfl, rfl⟩
  | cons x xs =>
    have hhead : this.head = some x.1 := h.head
    have hne : mem.size ≠ x.1 := fun he => hfresh (by simp [he])
    have hxs : x.1 ∉ xs.map Prod.fst := (List.nodup_cons.mp h.distinct).1
    let mem2 := (makeDlist mem data).1.set mem.size (some ⟨data, some x.1, none⟩)
    have hitem : mem2.read mem.size = some ⟨data, some x.1, none⟩ := Memory.read_set_self hread _
    have hold : Linked Dlist.mk mem2 none (x :: xs) none := hlinked.set_of_not_mem hfresh _
    have hnew := hold.relink_first hxs (some mem.size)
    refine ⟨{ this with head := some mem.size, counter := this.counter + 1 },
      mem2.set x.1 (some ⟨x.2, headPtr xs none, some mem.size⟩), mem.size, ?_, ?_⟩
    · have hwrite : (makeDlist mem data).1.write mem.size ⟨data, some x.1, none⟩ = some mem2 :=
        Memory.write_live hread _
      have hx := hold.1
      simp [queuePushHead, hhead, hread, hwrite, hx, Memory.write_live hx]
    · refine ⟨hcounter, ?_, ⟨?_, hnew⟩, rfl, ?_⟩
      · exact List.nodup_cons.mpr ⟨hfresh, h.distinct⟩
      · rw [Memory.read_set_ne _ hne]
        exact hitem
      · exact h.tail

theorem Links.pushTail (h : Links this mem nodes) (data : α) :
    ∃ this' mem' a, queuePushTail this mem data = some (this', mem') ∧
      Links this' mem' (nodes ++ [(a, data)]) := by
  obtain ⟨hlinked, hfresh, hread⟩ := h.fresh data
  have hcounter := h.counter_push
  rcases List.eq_nil_or_concat nodes with rfl | ⟨ys, y, rfl⟩
  · have htail : this.tail = none := h.tail
    refine ⟨{ head := some mem.size, tail := some mem.size, counter := this.counter + 1 },
      (makeDlist mem data).1, mem.size, by rw [queuePushTail, htail]; rfl, ?_⟩
    exact ⟨hcounter, by simp, ⟨hread, trivial⟩, rfl, rfl⟩
  · rw [List.concat_eq_append] at *
    have htail : this.tail = some y.1 := by rw [h.tail, lastPtr_concat]
    have hne : mem.size ≠ y.1 := fun he => hfresh (by simp [he])
    have hys : y.1 ∉ ys.map Prod.fst := (nodup_concat h.distinct).2
    let mem2 := (makeDlist mem data).1.set mem.size (some ⟨data, none, some y.1⟩)
    have hitem : mem2.read mem.size = some ⟨data, none, some y.1⟩ := Memory.read_set_self hread _
    have hold : Linked Dlist.mk mem2 none (ys ++ [y]) none := hlinked.set_of_not_mem hfresh _
    have hnew := hold.relink_last hys (some mem.size)
    refine ⟨{ this with tail := some mem.size, counter := this.counter + 1 },
      mem2.set y.1 (some ⟨y.2, some mem.size, lastPtr none ys⟩), mem.size, ?_, ?_⟩
    · have hwrite : (makeDlist mem data).1.write mem.size ⟨data, none, some y.1⟩ = some mem2 :=
        Memory.write_live hread _
      have hy := (linked_concat.mp hold).2
      simp [queuePushTail, htail, hread, hwrite, hy, Memory.write_live hy]
    · refine ⟨?_, ?_, linked_concat.mpr ⟨hnew, ?_⟩, ?_, ?_⟩
      · rw [List.length_append, List.length_singleton]
        exact hcounter
      · rw [List.map_append, List.nodup_append]
        refine ⟨h.distinct, by simp, fun a ha b hb => ?_⟩
        rw [List.map_singleton, List.mem_singleton] at hb
        rw [hb]
        exact ne_of_mem_of_not_mem ha hfresh
      · rw [Memory.read_set_ne _ hne, lastPtr_concat]
        exact hitem
      · rw [headPtr_append, headPtr_append]
        exact (headPtr_append ys [y] none ▸ h.head)
      · rw [lastPtr_concat]

theorem queuePushHead_spec (h : Chain this mem nodes) (hshort : nodes.length + 1 < 2 ^ 31) (data : α) :
    ∃ this' mem' a, queuePushHead this mem data = some (this', mem') ∧
      Chain this' mem' ((a, data) :: nodes) := by
  obtain ⟨this', mem', a, hrun, h'⟩ := h.links.pushHead data
  exact ⟨this', mem', a, hrun, h'.chain hshort⟩

theorem queuePushTail_spec (h : Chain this mem nodes) (hshort : nodes.length + 1 < 2 ^ 31) (data : α) :
    ∃ this' mem' a, queuePushTail this mem data = some (this', mem') ∧
      Chain this' mem' (nodes ++ [(a, data)]) := by
  obtain ⟨this', mem', a, hrun, h'⟩ := h.links.pushTail data
  refine ⟨this', mem', a, hrun, h'.chain ?_⟩
  rwa [List.length_append, List.length_singleton]

/-! ## Pops -/

theorem counter_pop {n : Nat} : BitVec.ofNat 32 (n + 1) - 1 = BitVec.ofNat 32 n := by
  rw [BitVec.ofNat_add]
  exact BitVec.add_sub_cancel _ _

theorem Links.popHead {x : Addr × α} (h : Links this mem (x :: nodes)) :
    ∃ this' mem', queuePopHead this mem = some (this', mem', some x.2) ∧ Links this' mem' nodes := by
  obtain ⟨hx, hlinked⟩ := h.linked
  obtain ⟨hfresh, hdistinct⟩ := List.nodup_cons.mp h.distinct
  have hhead : this.head = some x.1 := h.head
  have hcounter : this.counter - 1 = BitVec.ofNat 32 nodes.length := by rw [h.counter]; exact counter_pop
  have hfree := Memory.free_live hx
  cases nodes with
  | nil =>
    refine ⟨{ head := none, tail := none, counter := this.counter - 1 }, mem.set x.1 none, ?_, ?_⟩
    · rw [headPtr_nil] at hx
      simp [queuePopHead, hhead, hx, hfree]
    · exact ⟨hcounter, hdistinct, trivial, rfl, rfl⟩
  | cons y ys =>
    have hold : Linked Dlist.mk (mem.set x.1 none) (some x.1) (y :: ys) none :=
      hlinked.set_of_not_mem hfresh _
    have hnew := hold.relink_first (List.nodup_cons.mp hdistinct).1 none
    have hy := hold.1
    refine ⟨{ this with head := some y.1, counter := this.counter - 1 }, _, ?_,
      ⟨hcounter, hdistinct, hnew, rfl, h.tail⟩⟩
    rw [headPtr_cons] at hx
    simp [queuePopHead, hhead, hx, hfree, hy, Memory.write_live hy]

/-- The branch of `queue_pop_tail` that leaves a node in the queue. -/
theorem Links.popTail {x : Addr × α} (h : Links this mem (nodes ++ [x])) (hne : nodes ≠ []) :
    ∃ this' mem', queuePopTail this mem = some (this', mem', some x.2) ∧ Links this' mem' nodes := by
  obtain ⟨hlinked, hx⟩ := linked_concat.mp h.linked
  obtain ⟨hdistinct, hfresh⟩ := nodup_concat h.distinct
  have htail : this.tail = some x.1 := by rw [h.tail, lastPtr_concat]
  have hlen : (nodes ++ [x]).length = nodes.length + 1 := by simp
  have hcounter : this.counter - 1 = BitVec.ofNat 32 nodes.length := by
    rw [h.counter, hlen]
    exact counter_pop
  have hfree := Memory.free_live hx
  rcases List.eq_nil_or_concat nodes with rfl | ⟨ys, y, rfl⟩
  · exact absurd rfl hne
  · rw [List.concat_eq_append] at *
    have hold : Linked Dlist.mk (mem.set x.1 none) none (ys ++ [y]) (some x.1) :=
      hlinked.set_of_not_mem hfresh _
    have hnew := hold.relink_last (nodup_concat hdistinct).2 none
    have hy := (linked_concat.mp hold).2
    refine ⟨{ this with tail := some y.1, counter := this.counter - 1 }, _, ?_,
      ⟨hcounter, hdistinct, hnew, ?_, (lastPtr_concat none ys y).symm⟩⟩
    · rw [lastPtr_concat] at hx
      simp [queuePopTail, htail, hx, hfree, hy, Memory.write_live hy]
    · rw [headPtr_append]
      have hh := h.head
      rw [headPtr_append, headPtr_append] at hh
      exact hh

theorem queuePopHead_spec {x : Addr × α} (h : Chain this mem (x :: nodes)) :
    ∃ this' mem', queuePopHead this mem = some (this', mem', some x.2) ∧ Chain this' mem' nodes := by
  obtain ⟨this', mem', hrun, h'⟩ := h.links.popHead
  exact ⟨this', mem', hrun, h'.chain (Nat.lt_of_succ_lt h.short)⟩

theorem queuePopTail_spec {x : Addr × α} (h : Chain this mem (nodes ++ [x])) (hne : nodes ≠ []) :
    ∃ this' mem', queuePopTail this mem = some (this', mem', some x.2) ∧ Chain this' mem' nodes := by
  obtain ⟨this', mem', hrun, h'⟩ := h.links.popTail hne
  have hshort := h.short
  rw [List.length_append] at hshort
  exact ⟨this', mem', hrun, h'.chain (Nat.lt_of_add_right_lt hshort)⟩

/-! ## Runs -/

/-- An operation that is handled does what the deque does. -/
theorem exec_spec (h : Chain this mem nodes) {o : Op α} {s : Compared α} (hs : s.deque = nodes.map Prod.snd)
    (ho : Handled s o) :
    ∃ this' mem' nodes', exec (this, mem) o = some ((this', mem'), (dequeStep s.deque o).2) ∧
      Chain this' mem' nodes' ∧ (dequeStep s.deque o).1 = nodes'.map Prod.snd := by
  have hlen : s.deque.length = nodes.length := by rw [hs, List.length_map]
  cases o with
  | pushHead data =>
    have hshort : nodes.length + 1 < 2 ^ 31 := hlen ▸ ho
    obtain ⟨this', mem', a, hrun, h'⟩ := queuePushHead_spec h hshort data
    exact ⟨this', mem', _, by simp [exec, hrun, dequeStep], h', by simp [dequeStep, hs]⟩
  | pushTail data =>
    have hshort : nodes.length + 1 < 2 ^ 31 := hlen ▸ ho
    obtain ⟨this', mem', a, hrun, h'⟩ := queuePushTail_spec h hshort data
    exact ⟨this', mem', _, by simp [exec, hrun, dequeStep], h', by simp [dequeStep, hs]⟩
  | popHead =>
    cases nodes with
    | nil =>
      have hhead : this.head = none := h.head
      exact ⟨this, mem, [], by simp [exec, queuePopHead, hhead, dequeStep, hs], h, by simp [dequeStep, hs]⟩
    | cons x xs =>
      obtain ⟨this', mem', hrun, h'⟩ := queuePopHead_spec h
      exact ⟨this', mem', xs, by simp [exec, hrun, dequeStep, hs], h', by simp [dequeStep, hs]⟩
  | popTail =>
    rcases List.eq_nil_or_concat nodes with rfl | ⟨ys, y, rfl⟩
    · have htail : this.tail = none := h.tail
      exact ⟨this, mem, [], by simp [exec, queuePopTail, htail, dequeStep, hs], h, by simp [dequeStep, hs]⟩
    · rw [List.concat_eq_append] at *
      have hne : ys ≠ [] := by
        rintro rfl
        exact ho (by rw [hlen]; rfl)
      obtain ⟨this', mem', hrun, h'⟩ := queuePopTail_spec h hne
      exact ⟨this', mem', ys, by simp [exec, hrun, dequeStep, hs], h', by simp [dequeStep, hs]⟩
  | peekHead =>
    refine ⟨this, mem, nodes, ?_, h, hs⟩
    cases nodes with
    | nil =>
      have hhead : this.head = none := h.head
      simp [exec, queuePeekHead, hhead, dequeStep, hs]
    | cons x xs =>
      have hhead : this.head = some x.1 := h.head
      have hx := h.linked.1
      simp [exec, queuePeekHead, hhead, hx, dequeStep, hs]
  | peekTail =>
    refine ⟨this, mem, nodes, ?_, h, hs⟩
    rcases List.eq_nil_or_concat nodes with rfl | ⟨ys, y, rfl⟩
    · have htail : this.tail = none := h.tail
      simp [exec, queuePeekTail, htail, dequeStep, hs]
    · rw [List.concat_eq_append] at *
      have htail : this.tail = some y.1 := by rw [h.tail, lastPtr_concat]
      have hy := (linked_concat.mp h.linked).2
      simp [exec, queuePeekTail, htail, hy, dequeStep, hs]

/-- The invariant of the comparison. -/
def InStep (s : Compared α) : Prop :=
  s.returned = s.expected ∧ ∃ nodes, s.deque = nodes.map Prod.snd ∧ Chain s.queue s.mem nodes

theorem InStep.isDeque {s : Compared α} (h : InStep s) : IsDeque s := by
  obtain ⟨hret, nodes, hs, hchain⟩ := h
  exact ⟨hret, hs ▸ hchain.stores⟩

theorem compareStep_inStep (s : Compared α) (o : Op α) (h : InStep s) (ho : Handled s o) :
    ∃ s' u, compareStep s o = some (s', u) ∧ InStep s' := by
  obtain ⟨hret, nodes, hs, hchain⟩ := h
  obtain ⟨this', mem', nodes', hrun, hchain', hs'⟩ := exec_spec hchain hs ho
  refine ⟨_, (), by rw [compareStep, hrun, Option.map_some], ?_, nodes', hs', hchain'⟩
  rw [hret]

theorem push_counter {s s' : Compared α} {o : Op α} {u : Unit} {data : α}
    (ho : o = .pushHead data ∨ o = .pushTail data) (hstep : compareStep s o = some (s', u)) :
    s'.queue.counter = s.queue.counter + 1 := by
  obtain ⟨r, hexec, he⟩ := Option.map_eq_some_iff.mp hstep
  cases he
  rcases ho with rfl | rfl
  · obtain ⟨r', hpush, rfl⟩ := Option.map_eq_some_iff.mp hexec
    rw [queuePushHead] at hpush
    split at hpush
    · cases hpush
      rfl
    · simp only [Option.bind_eq_bind, Option.bind_eq_some_iff] at hpush
      obtain ⟨_, -, _, -, _, -, _, -, he⟩ := hpush
      cases he
      rfl
  · obtain ⟨r', hpush, rfl⟩ := Option.map_eq_some_iff.mp hexec
    rw [queuePushTail] at hpush
    split at hpush
    · cases hpush
      rfl
    · simp only [Option.bind_eq_bind, Option.bind_eq_some_iff] at hpush
      obtain ⟨_, -, _, -, _, -, _, -, he⟩ := hpush
      cases he
      rfl

/-- A push beyond the range of the counter turns it negative. -/
theorem push_overflows {s s' : Compared α} {o : Op α} {u : Unit} {data : α} (h : InStep s)
    (ho : o = .pushHead data ∨ o = .pushTail data) (hlong : ¬ s.deque.length + 1 < 2 ^ 31)
    (hstep : compareStep s o = some (s', u)) : ¬ IsDeque s' := by
  intro hgood
  obtain ⟨-, nodes, hs, hchain⟩ := h
  have hlen : s.deque.length = nodes.length := by rw [hs, List.length_map]
  have hshort := hchain.short
  have hmax : nodes.length + 1 = 2 ^ 31 := by omega
  have hcounter := hgood.stores.counter
  rw [push_counter ho hstep, hchain.links.counter_push, hmax] at hcounter
  have hneg : (BitVec.ofNat 32 (2 ^ 31)).toInt = -2 ^ 31 := by decide
  rw [hneg] at hcounter
  omega

/-- Popping the only node from the tail leaves `head` at it. -/
theorem popTail_leaves_head {s s' : Compared α} {u : Unit} (h : InStep s) (hone : s.deque.length = 1)
    (hstep : compareStep s .popTail = some (s', u)) : ¬ IsDeque s' := by
  intro hgood
  obtain ⟨-, nodes, hs, hchain⟩ := h
  have hlen : s.deque.length = nodes.length := by rw [hs, List.length_map]
  obtain ⟨x, rfl⟩ := List.length_eq_one_iff.mp (hlen.symm.trans hone)
  have hhead : s.queue.head = some x.1 := hchain.head
  have htail : s.queue.tail = some x.1 := hchain.tail
  have hx : s.mem.read x.1 = some ⟨x.2, none, none⟩ := hchain.linked.1
  have hfree := Memory.free_live hx
  simp only [compareStep, exec, queuePopTail, htail, hx, hfree, Option.bind_eq_bind, Option.bind_some,
    Option.map_some, Option.some.injEq, Prod.mk.injEq, and_true] at hstep
  subst hstep
  have hnil := hgood.stores.head_null
  simp [hhead, hs, dequeStep] at hnil

/-- On every sequence of operations the queue is a deque, with every call returning,
exactly when no `queue_pop_tail` meets a single element and no push overflows the
counter. -/
theorem queue_is_deque_iff (mem0 : Mem α) (ops : List (Op α)) :
    (∀ k, ∃ s os, run compareStep ⟨makeQueue, mem0, [], [], []⟩ (ops.take k) = some (s, os) ∧ IsDeque s) ↔
      Guarded compareStep Handled ⟨makeQueue, mem0, [], [], []⟩ ops := by
  have hinit : InStep (⟨makeQueue, mem0, [], [], []⟩ : Compared α) := ⟨rfl, [], rfl, chain_make mem0⟩
  refine returns_iff_guarded (fun _ h => h.isDeque) compareStep_inStep ?_ hinit ops
  intro s o s' u h ho hstep
  cases o with
  | pushHead data => exact push_overflows h (Or.inl rfl) ho hstep
  | pushTail data => exact push_overflows h (Or.inr rfl) ho hstep
  | popTail => exact popTail_leaves_head h (not_not.mp ho) hstep
  | popHead => exact absurd trivial ho
  | peekHead => exact absurd trivial ho
  | peekTail => exact absurd trivial ho

/-- After the only element is popped from the tail, `head` points at its freed node
and the next look at the head reads it. -/
theorem pop_tail_leaves_head :
    ∃ s os, run compareStep (⟨makeQueue, ⟨[]⟩, [], [], []⟩ : Compared Int) [.pushTail 1, .popTail] =
        some (s, os) ∧
      s.deque = [] ∧ s.queue.head = some 0 ∧ ¬ IsDeque s ∧ queuePeekHead s.queue s.mem = none := by
  refine ⟨_, _, rfl, rfl, rfl, fun h => ?_, rfl⟩
  exact absurd (h.stores.head_null.mpr rfl) (by decide)

end Devclego.Queues

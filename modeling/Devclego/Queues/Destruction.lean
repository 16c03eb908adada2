import Devclego.Queues.Deque

/-!
# Destroying a queue

`queue_is_empty` answers whether the counter is positive, so the loop of `queue_dtor`
runs just while the queue holds nothing: it leaves a queue with elements untouched
and never leaves an empty one. A loop that takes more rounds than its fuel, or reads
a freed node, has no result.
-/
namespace Devclego.Queues

open Foundation

variable {α : Type}

def queueIsEmpty (this : Queue) : Bool := 0 < this.counter.toInt

/-- The loop of `queue_dtor`, with the disposer's calls when there is one. -/
def dtorLoop (disposer : Bool) : Nat → Queue → Mem α → Option (Queue × Mem α × List (Option α))
  | 0, _, _ => none
  | fuel + 1, this, mem =>
    if queueIsEmpty this then some (this, mem, [])
    else do
      let (this, mem, data) ← queuePopHead this mem
      let (this, mem, calls) ← dtorLoop disposer fuel this mem
      some (this, mem, if disposer then data :: calls else calls)

/-- The disposer's calls; the queue itself is freed after the loop. -/
def queueDtor (disposer : Bool) (fuel : Nat) (target : Option Queue) (mem : Mem α) :
    Option (List (Option α)) :=
  match target with
  | none => some []
  | some this => (dtorLoop disposer fuel this mem).map (·.2.2)

/-- In this queue, and in those that pops of its head make of it, `queue_is_empty` is
true exactly when no element is left. -/
def EmptyExact (this : Queue) (mem : Mem α) (xs : List α) : Prop :=
  ∀ k this' mem' outs, run exec (this, mem) (List.replicate k .popHead) = some ((this', mem'), outs) →
    (queueIsEmpty this' = true ↔ xs.drop k = [])

/-- Destruction ends, disposes the elements from head to tail, each once and nothing
else, and is steered by an exact test. -/
structure DestroysOnce (disposer : Bool) (this : Queue) (mem : Mem α) (xs : List α) : Prop where
  disposes : ∃ fuel, queueDtor disposer fuel (some this) mem = some (if disposer then xs.map some else [])
  steered : EmptyExact this mem xs

/-! ## Reachable queues -/

/-- A queue that `queue_pop_tail` emptied: its head is the freed node. -/
structure LeftBehind (this : Queue) (mem : Mem α) : Prop where
  counter : this.counter = 0
  tail : this.tail = none
  head : ∃ a < mem.size, this.head = some a ∧ mem.read a = none

/-- A queue that operations can reach, well linked or left behind by a tail pop. -/
def Reached (this : Queue) (mem : Mem α) (xs : List α) : Prop :=
  (∃ nodes, Links this mem nodes ∧ xs = nodes.map Prod.snd) ∨ LeftBehind this mem ∧ xs = []

variable {this this' : Queue} {mem mem' : Mem α} {nodes : List (Addr × α)} {xs : List α}

theorem reached_make (mem : Mem α) : Reached makeQueue mem [] :=
  Or.inl ⟨[], (chain_make mem).links, rfl⟩

/-- A tail pop of the only element. -/
theorem Links.popTail_last {x : Addr × α} (h : Links this mem [x]) :
    ∃ this' mem', queuePopTail this mem = some (this', mem', some x.2) ∧ LeftBehind this' mem' := by
  have hx : mem.read x.1 = some ⟨x.2, none, none⟩ := h.linked.1
  have hhead : this.head = some x.1 := h.head
  have htail : this.tail = some x.1 := h.tail
  have hcounter : this.counter = 1 := h.counter
  have hsize : (mem.set x.1 none).size = mem.size := List.length_set
  refine ⟨{ this with counter := this.counter - 1, tail := none }, mem.set x.1 none, ?_, ?_, rfl, ?_⟩
  · simp [queuePopTail, htail, hx, Memory.free_live hx]
  · show this.counter - 1 = 0
    rw [hcounter]
    rfl
  · refine ⟨x.1, ?_, hhead, Memory.read_set_self hx none⟩
    rw [hsize]
    exact Memory.lt_size_of_read hx

theorem exec_links (h : Links this mem nodes) (o : Op α) :
    ∃ this' mem' out, exec (this, mem) o = some ((this', mem'), out) ∧
      Reached this' mem' (dequeStep (nodes.map Prod.snd) o).1 := by
  cases o with
  | pushHead data =>
    obtain ⟨this', mem', a, hrun, h'⟩ := h.pushHead data
    exact ⟨this', mem', none, by rw [exec, hrun]; rfl, Or.inl ⟨_, h', rfl⟩⟩
  | pushTail data =>
    obtain ⟨this', mem', a, hrun, h'⟩ := h.pushTail data
    refine ⟨this', mem', none, by rw [exec, hrun]; rfl, Or.inl ⟨_, h', ?_⟩⟩
    rw [List.map_append]
    rfl
  | popHead =>
    cases nodes with
    | nil =>
      have hhead : this.head = none := h.head
      exact ⟨this, mem, none, by simp [exec, queuePopHead, hhead], Or.inl ⟨[], h, rfl⟩⟩
    | cons x xs =>
      obtain ⟨this', mem', hrun, h'⟩ := h.popHead
      exact ⟨this', mem', some x.2, by rw [exec, hrun]; rfl, Or.inl ⟨xs, h', rfl⟩⟩
  | popTail =>
    rcases List.eq_nil_or_concat' nodes with rfl | ⟨ys, y, rfl⟩
    · have htail : this.tail = none := h.tail
      exact ⟨this, mem, none, by simp [exec, queuePopTail, htail], Or.inl ⟨[], h, rfl⟩⟩
    · by_cases hys : ys = []
      · subst hys
        obtain ⟨this', mem', hrun, h'⟩ := h.popTail_last
        exact ⟨this', mem', some y.2, by rw [exec, hrun]; rfl, Or.inr ⟨h', rfl⟩⟩
      · obtain ⟨this', mem', hrun, h'⟩ := h.popTail hys
        refine ⟨this', mem', some y.2, by rw [exec, hrun]; rfl, Or.inl ⟨ys, h', ?_⟩⟩
        rw [List.map_append, dequeStep, List.map_singleton, List.dropLast_concat]
  | peekHead =>
    cases nodes with
    | nil =>
      have hhead : this.head = none := h.head
      exact ⟨this, mem, none, by simp [exec, queuePeekHead, hhead], Or.inl ⟨[], h, rfl⟩⟩
    | cons x xs =>
      have hhead : this.head = some x.1 := h.head
      have hx := h.linked.1
      exact ⟨this, mem, some x.2, by simp [exec, queuePeekHead, hhead, hx], Or.inl ⟨x :: xs, h, rfl⟩⟩
  | peekTail =>
    rcases List.eq_nil_or_concat' nodes with rfl | ⟨ys, y, rfl⟩
    · have htail : this.tail = none := h.tail
      exact ⟨this, mem, none, by simp [exec, queuePeekTail, htail], Or.inl ⟨[], h, rfl⟩⟩
    · have htail : this.tail = some y.1 := by rw [h.tail, lastPtr_concat]
      have hy := (linked_concat.mp h.linked).2
      exact ⟨this, mem, some y.2, by simp [exec, queuePeekTail, htail, hy], Or.inl ⟨_, h, rfl⟩⟩

/-- From a queue left behind only tail operations return, and a tail push heals it. -/
theorem exec_leftBehind (h : LeftBehind this mem) {o : Op α} {r : (Queue × Mem α) × Option α}
    (hexec : exec (this, mem) o = some r) : Reached r.1.1 r.1.2 (dequeStep [] o).1 := by
  obtain ⟨hcounter, htail, a, hlt, hhead, hfreed⟩ := h
  cases o with
  | pushHead data =>
    have hne : a ≠ mem.size := Nat.ne_of_lt hlt
    have hitem : (makeDlist mem data).1.read mem.size = some ⟨data, none, none⟩ := mem.read_alloc_self _
    have hstill : ((makeDlist mem data).1.set mem.size (some ⟨data, some a, none⟩)).read a = none := by
      rw [Memory.read_set_ne _ hne, makeDlist, Memory.read_alloc_ne _ _ hne, hfreed]
    simp [exec, queuePushHead, hhead, hitem, Memory.write_live hitem, hstill] at hexec
  | pushTail data =>
    have hitem : (makeDlist mem data).1.read mem.size = some ⟨data, none, none⟩ := mem.read_alloc_self _
    simp only [exec, queuePushTail, htail, makeDlist_addr, Option.map_some, Option.some.injEq] at hexec
    subst hexec
    refine Or.inl ⟨[(mem.size, data)], ⟨?_, by simp, ⟨hitem, trivial⟩, rfl, rfl⟩, rfl⟩
    show this.counter + 1 = 1
    rw [hcounter]
    rfl
  | popHead => simp [exec, queuePopHead, hhead, hfreed] at hexec
  | popTail =>
    simp only [exec, queuePopTail, htail, Option.map_some, Option.some.injEq] at hexec
    subst hexec
    exact Or.inr ⟨⟨hcounter, htail, a, hlt, hhead, hfreed⟩, rfl⟩
  | peekHead => simp [exec, queuePeekHead, hhead, hfreed] at hexec
  | peekTail =>
    simp only [exec, queuePeekTail, htail, Option.map_some, Option.some.injEq] at hexec
    subst hexec
    exact Or.inr ⟨⟨hcounter, htail, a, hlt, hhead, hfreed⟩, rfl⟩

theorem run_reached {ops : List (Op α)} {outs : List (Option α)} (h : Reached this mem xs)
    (hrun : run exec (this, mem) ops = some ((this', mem'), outs)) :
    Reached this' mem' (specRun dequeStep xs ops).1 := by
  induction ops generalizing this mem xs outs with
  | nil =>
    cases hrun
    exact h
  | cons o ops ih =>
    obtain ⟨⟨this₁, mem₁⟩, out, r, outs', hexec, hrest, he⟩ := run_cons.mp hrun
    cases he
    refine ih ?_ hrest
    rcases h with ⟨nodes, hlinks, rfl⟩ | ⟨hleft, rfl⟩
    · obtain ⟨this₂, mem₂, out₂, hexec₂, hreached⟩ := exec_links hlinks o
      cases hexec.symm.trans hexec₂
      exact hreached
    · exact exec_leftBehind hleft hexec

/-! ## The loop and its test -/

theorem queueIsEmpty_nil (h : Reached this mem []) : queueIsEmpty this = false := by
  have hcounter : this.counter = 0 := by
    rcases h with ⟨nodes, hlinks, hnil⟩ | ⟨hleft, -⟩
    · rw [hlinks.counter, List.map_eq_nil_iff.mp hnil.symm]
      rfl
    · exact hleft.counter
  rw [queueIsEmpty, hcounter]
  rfl

/-- A queue of any length below the counter's range is taken for empty when it is not. -/
theorem queueIsEmpty_of_pos (h : Links this mem nodes) (hpos : 0 < nodes.length)
    (hshort : nodes.length < 2 ^ 31) : queueIsEmpty this = true := by
  rw [queueIsEmpty, h.counter, toInt_ofNat hshort]
  exact decide_eq_true (Int.natCast_pos.mpr hpos)

theorem popHeads {k : Nat} (h : Links this mem nodes) (hk : k ≤ nodes.length) :
    ∃ this' mem' outs, run exec (this, mem) (List.replicate k .popHead) = some ((this', mem'), outs) ∧
      Links this' mem' (nodes.drop k) := by
  induction k generalizing this mem nodes with
  | zero => exact ⟨this, mem, [], rfl, h⟩
  | succ k ih =>
    obtain ⟨x, rest, rfl⟩ := List.exists_cons_of_length_pos (Nat.lt_of_lt_of_le (Nat.succ_pos k) hk)
    obtain ⟨this₁, mem₁, hpop, h₁⟩ := h.popHead
    obtain ⟨this', mem', outs, hrun, h'⟩ := ih h₁ (Nat.le_of_succ_le_succ hk)
    have hexec : exec (this, mem) .popHead = some ((this₁, mem₁), some x.2) := by
      rw [exec, hpop]
      rfl
    exact ⟨this', mem', _, run_cons.mpr ⟨_, _, _, _, hexec, hrun, rfl⟩, h'⟩

/-- The test is wrong of an empty queue, and of the last element of any other. -/
theorem Reached.not_exact (h : Reached this mem xs) : ¬ EmptyExact this mem xs := by
  intro hexact
  by_cases hnil : xs = []
  · subst hnil
    have hsays := (hexact 0 this mem [] rfl).mpr rfl
    rw [queueIsEmpty_nil h] at hsays
    cases hsays
  · rcases h with ⟨nodes, hlinks, rfl⟩ | ⟨-, rfl⟩
    · have hpos : 0 < nodes.length := by
        rw [Nat.pos_iff_ne_zero]
        exact fun hz => hnil (by rw [List.length_eq_zero_iff.mp hz]; rfl)
      obtain ⟨this', mem', outs, hrun, hlast⟩ := popHeads hlinks (Nat.sub_le nodes.length 1)
      have hone : (nodes.drop (nodes.length - 1)).length = 1 := by
        rw [List.length_drop]
        omega
      have hsays : queueIsEmpty this' = true :=
        queueIsEmpty_of_pos hlast (by rw [hone]; decide) (by rw [hone]; decide)
      have hempty := (hexact _ _ _ _ hrun).mp hsays
      rw [← List.map_drop, List.map_eq_nil_iff] at hempty
      rw [hempty] at hone
      cases hone
    · exact hnil rfl

/-- A loop that ends has not taken every element out. -/
theorem dtorLoop_leaves {disposer : Bool} {fuel : Nat} {left : Queue} {calls : List (Option α)}
    (h : Links this mem nodes) (hloop : dtorLoop disposer fuel this mem = some (left, mem', calls)) :
    calls.length < nodes.length := by
  induction fuel generalizing this mem nodes calls with
  | zero => cases hloop
  | succ fuel ih =>
    rw [dtorLoop] at hloop
    by_cases hempty : queueIsEmpty this = true
    · rw [if_pos hempty] at hloop
      cases hloop
      cases nodes with
      | nil =>
        rw [queueIsEmpty_nil (Or.inl ⟨[], h, rfl⟩)] at hempty
        cases hempty
      | cons x rest => exact Nat.succ_pos _
    · rw [if_neg hempty] at hloop
      simp only [Option.bind_eq_bind, Option.bind_eq_some_iff] at hloop
      obtain ⟨⟨this₁, mem₁, data⟩, hpop, ⟨this₂, mem₂, calls₂⟩, hrest, he⟩ := hloop
      have hcalls : calls.length ≤ calls₂.length + 1 := by
        cases disposer with
        | false => cases he; exact Nat.le_succ _
        | true => cases he; exact Nat.le_refl _
      cases he
      cases nodes with
      | nil =>
        have hhead : this.head = none := h.head
        rw [queuePopHead, hhead] at hpop
        cases hpop
        exact absurd (ih h hrest) (Nat.not_lt_zero _)
      | cons x rest =>
        obtain ⟨this₃, mem₃, hpop', h'⟩ := h.popHead
        cases hpop.symm.trans hpop'
        exact Nat.lt_of_le_of_lt hcalls (Nat.succ_lt_succ (ih h' hrest))

/-- With a disposer, no reachable queue is disposed. -/
theorem Reached.not_disposes (h : Reached this mem xs) (fuel : Nat) :
    queueDtor true fuel (some this) mem ≠ some (xs.map some) := by
  intro hdtor
  obtain ⟨⟨left, mem', calls⟩, hloop, hcalls⟩ := Option.map_eq_some_iff.mp hdtor
  rcases h with ⟨nodes, hlinks, rfl⟩ | ⟨hleft, rfl⟩
  · have hlt := dtorLoop_leaves hlinks hloop
    have hlen := congrArg List.length hcalls
    rw [List.length_map, List.length_map] at hlen
    exact absurd hlen (Nat.ne_of_lt hlt)
  · obtain ⟨a, -, hhead, hfreed⟩ := hleft.head
    cases fuel with
    | zero => cases hloop
    | succ fuel =>
      have hempty : queueIsEmpty this = false := queueIsEmpty_nil (Or.inr ⟨hleft, rfl⟩)
      simp [dtorLoop, hempty, queuePopHead, hhead, hfreed] at hloop

/-! ## What destruction does instead -/

/-- A queue with elements is left as it is. -/
theorem queueDtor_nonempty (h : Links this mem nodes) (hpos : 0 < nodes.length)
    (hshort : nodes.length < 2 ^ 31) (disposer : Bool) (fuel : Nat) :
    queueDtor disposer (fuel + 1) (some this) mem = some [] := by
  rw [queueDtor, dtorLoop, if_pos (queueIsEmpty_of_pos h hpos hshort)]
  rfl

/-- An empty queue is popped for ever. -/
theorem queueDtor_empty (h : Links this mem []) (disposer : Bool) (fuel : Nat) :
    queueDtor disposer fuel (some this) mem = none := by
  have hhead : this.head = none := h.head
  have hempty : queueIsEmpty this = false := queueIsEmpty_nil (Or.inl ⟨[], h, rfl⟩)
  have hpop : queuePopHead this mem = some (this, mem, none) := by rw [queuePopHead, hhead]
  have hloop : dtorLoop disposer fuel this mem = none := by
    induction fuel with
    | zero => rfl
    | succ fuel ih =>
      rw [dtorLoop, hempty, hpop]
      show (dtorLoop disposer fuel this mem >>= _) = none
      rw [ih]
      rfl
  rw [queueDtor, hloop]
  rfl

/-- Whatever pushes and pops make of a new queue, its destruction is wrong: the test is
inexact, and with a disposer the elements are not what is disposed. -/
theorem queue_dtor_never_right (mem0 : Mem α) (ops : List (Op α)) (this : Queue) (mem : Mem α)
    (outs : List (Option α)) (hrun : run exec (makeQueue, mem0) ops = some ((this, mem), outs)) :
    (∀ disposer, ¬ DestroysOnce disposer this mem (specRun dequeStep [] ops).1) ∧
      ∀ fuel, queueDtor true fuel (some this) mem ≠ some ((specRun dequeStep [] ops).1.map some) := by
  have hreached := run_reached (reached_make mem0) hrun
  exact ⟨fun disposer h => hreached.not_exact h.steered, hreached.not_disposes⟩

/-- The queue is taken for empty with one element in it, and the element stays. -/
theorem queue_dtor_keeps_element :
    ∃ this mem, run exec (makeQueue, ⟨[]⟩) [.pushTail (1 : Int)] = some ((this, mem), [none]) ∧
      queueIsEmpty this = true ∧ queueDtor true 1 (some this) mem = some [] ∧
      ¬ DestroysOnce true this mem [1] := by
  refine ⟨_, _, rfl, by decide, by decide, fun h => ?_⟩
  have hwrong := (h.steered 0 _ _ [] rfl).mp (by decide)
  cases hwrong

/-- A queue that was filled, popped from the tail and filled again. -/
theorem queue_dtor_never_right_run :
    ∃ this mem outs, run exec (makeQueue, ⟨[]⟩) [.pushTail (1 : Int), .popTail, .pushTail 2] =
        some ((this, mem), outs) ∧
      (∀ disposer, ¬ DestroysOnce disposer this mem [2]) ∧
      ∀ fuel, queueDtor true fuel (some this) mem ≠ some [some 2] :=
  ⟨_, _, _, rfl, queue_dtor_never_right ⟨[]⟩ [.pushTail (1 : Int), .popTail, .pushTail 2] _ _ _ rfl⟩

end Devclego.Queues

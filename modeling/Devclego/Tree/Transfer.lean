import Devclego.Tree.FiniteMap

/-!
# Moving nodes between two trees

Two trees share a memory but own no cell together. A transfer pops a node from
one and hands the node itself to the other. The sum of the two reference counts need
not stay what it was: the pop takes off what the unlinked cell holds, the insertion adds
one, and each count is a word of its own.
-/
namespace Devclego.Tree

open Foundation

variable {D : Type}

inductive Side where
  | first
  | second
deriving DecidableEq, Repr

/-- Which node the client pops. -/
inductive Pick (D : Type) where
  | top
  | bottom
  | value (data : D)
deriving DecidableEq, Repr

structure Pair (D : Type) where
  one : Bintree D
  two : Bintree D
  mem : Mem D
deriving DecidableEq, Repr

def popPicked (cmp : D → D → Int) (this : Bintree D) (mem : Mem D) :
    Pick D → Option (Bintree D × Mem D × Ptr)
  | .top => bintreePopTopNode cmp this mem
  | .bottom => bintreePopBottomNode cmp this mem
  | .value data => bintreePopNode cmp this mem data

/-- Pop from `source`, insert into `target`. A null node cannot be inserted, so
nothing is completed then. -/
def transfer (cmp : D → D → Int) (source target : Bintree D) (mem : Mem D) (pick : Pick D) :
    Option (Bintree D × Bintree D × Mem D) := do
  let (source, mem, node) ← popPicked cmp source mem pick
  match node with
  | none => some (source, target, mem)
  | some node =>
    let (target, mem) ← bintreeInsertNode cmp target mem node
    some (source, target, mem)

def fillStep (cmp : D → D → Int) (s : Pair D) : Side × D → Option (Pair D × Unit)
  | (.first, data) => (bintreeInsertData cmp s.one s.mem data).map fun (one, mem) =>
      ({ s with one := one, mem := mem }, ())
  | (.second, data) => (bintreeInsertData cmp s.two s.mem data).map fun (two, mem) =>
      ({ s with two := two, mem := mem }, ())

/-- A transfer out of the given side. -/
def moveStep (cmp : D → D → Int) (s : Pair D) : Side × Pick D → Option (Pair D × Unit)
  | (.first, pick) => (transfer cmp s.one s.two s.mem pick).map fun (one, two, mem) =>
      (⟨one, two, mem⟩, ())
  | (.second, pick) => (transfer cmp s.two s.one s.mem pick).map fun (two, one, mem) =>
      (⟨one, two, mem⟩, ())

def refs (s : Pair D) : Int := (bintreeGetRefnum s.one).toInt + (bintreeGetRefnum s.two).toInt

/-- The key of the picked node, unless the tree is empty. -/
def pickedKey (this : Bintree D) (mem : Mem D) : Pick D → Option D
  | .top => (mem.load this.top).map Bintreenode.data
  | .bottom => (mem.load this.bottom).map Bintreenode.data
  | .value data => some data

/-- The multiplicity of the cell that the pop will unlink. -/
def pickedRefs (cmp : D → D → Int) (this : Bintree D) (mem : Mem D) (pick : Pick D) : Option Int32 :=
  (pickedKey this mem pick).bind (unlinkedRef cmp this mem)

/-- A transfer out of `source` unlinks a cell of multiplicity one, or no cell at all. The
count of `target` is not at its upper end, unless that of `source` is at its lower end. -/
def UnlinksSingle (cmp : D → D → Int) (source target : Bintree D) (mem : Mem D) (pick : Pick D) : Prop :=
  ∀ u ∈ pickedRefs cmp source mem pick,
    u = 1 ∧ (bintreeGetRefnum target = Int32.maxValue ↔ bintreeGetRefnum source = Int32.minValue)

def MovesSingle (cmp : D → D → Int) (s : Pair D) : Side × Pick D → Prop
  | (.first, pick) => UnlinksSingle cmp s.one s.two s.mem pick
  | (.second, pick) => UnlinksSingle cmp s.two s.one s.mem pick

variable {cmp : D → D → Int} {this one two : Bintree D} {mem : Mem D} {t t1 t2 : Shape (Stored D)}
  {q q1 q2 : List Addr}

/-- Two represented trees that own no cell together. -/
structure Apart (cmp : D → D → Int) (one two : Bintree D) (mem : Mem D) (t1 : Shape (Stored D))
    (q1 : List Addr) (t2 : Shape (Stored D)) (q2 : List Addr) : Prop where
  first : Represents cmp one mem t1 q1
  second : Represents cmp two mem t2 q2
  apart : (t1.addrs ++ q1).Disjoint (t2.addrs ++ q2)

theorem Apart.swap (h : Apart cmp one two mem t1 q1 t2 q2) : Apart cmp two one mem t2 q2 t1 q1 :=
  ⟨h.second, h.first, List.disjoint_symm h.apart⟩

/-- A local step on one tree leaves the other as it was. -/
theorem Apart.local_step {one' : Bintree D} {mem' : Mem D} {t1' : Shape (Stored D)} {q1' : List Addr}
    (h : Apart cmp one two mem t1 q1 t2 q2) (hrep : Represents cmp one' mem' t1' q1')
    (hout : mem'.outside (t1'.addrs ++ q1') = mem.outside (t1.addrs ++ q1)) :
    Apart cmp one' two mem' t1' q1' t2 q2 := by
  obtain ⟨hd, hag⟩ := Memory.frame_disjoint hout h.apart h.second.live
  exact ⟨hrep, h.second.congr hag, hd⟩

theorem Represents.popPicked (h : Represents cmp this mem t q) (pick : Pick D) :
    popPicked cmp this mem pick =
      match pickedKey this mem pick with
      | none => some (this, mem, none)
      | some data => bintreePopNode cmp this mem data := by
  cases pick with
  | top =>
    rcases h.cached_cases h.top with ⟨htop, -, -⟩ | ⟨a, v, l, r, htop, -, hread, -⟩
    · simp [Tree.popPicked, pickedKey, bintreePopTopNode, htop]
    · simp [Tree.popPicked, pickedKey, bintreePopTopNode, bintreePopNode, htop, hread]
  | bottom =>
    rcases h.cached_cases h.bottom with ⟨hbot, -, -⟩ | ⟨a, v, l, r, hbot, -, hread, -⟩
    · simp [Tree.popPicked, pickedKey, bintreePopBottomNode, hbot]
    · simp [Tree.popPicked, pickedKey, bintreePopBottomNode, bintreePopNode, hbot, hread]
  | value data => rfl

/-- One transfer: the trees stay apart, and unless no node was there one count has lost
what the unlinked cell holds and the other has gained one. -/
theorem transfer_spec (order : TotalOrder cmp) (h : Apart cmp one two mem t1 q1 t2 q2) (pick : Pick D) :
    ∃ one' two' mem' t1' q1' t2' q2', transfer cmp one two mem pick = some (one', two', mem') ∧
      Apart cmp one' two' mem' t1' q1' t2' q2' ∧
      bintreeGetRefnum one' = bintreeGetRefnum one - (pickedRefs cmp one mem pick).getD 0 ∧
      bintreeGetRefnum two' = bintreeGetRefnum two + ((pickedRefs cmp one mem pick).map fun _ => 1).getD 0 := by
  have hpop := h.first.popPicked pick
  cases hkey : pickedKey one mem pick with
  | none =>
    rw [hkey] at hpop
    exact ⟨one, two, mem, t1, q1, t2, q2, by simp [transfer, hpop], h, by simp [pickedRefs, hkey],
      by simp [pickedRefs, hkey]⟩
  | some data =>
    rw [hkey] at hpop
    obtain ⟨one', mem1, t1', p, hrun, hh, -, href⟩ := h.first.popNode order data
    have hrun' := hpop.trans hrun
    cases hf : Tally.find cmp t1.vals data with
    | none =>
      rw [hf] at hh
      cases hh with
      | absent =>
        have hunl : unlinkedRef cmp one mem data = none := by
          rcases h.first.cases order data with ⟨_, _, _, _, -, -, -, hsome, -⟩ | ⟨-, p, hp⟩
          · rw [hf] at hsome
            cases hsome
          · simp [unlinkedRef, hp]
        exact ⟨one, two, mem, t1, q1, t2, q2, by simp [transfer, hrun'], h, by simp [pickedRefs, hkey, hunl],
          by simp [pickedRefs, hkey, hunl]⟩
    | some e =>
      rw [hf] at hh
      cases hh with
      | popped _ _ _ b _ hp =>
        obtain ⟨hd, hag⟩ := Memory.frame_disjoint hp.outside h.apart h.second.live
        have hb2 : b ∉ t2.addrs ++ q2 := fun hm => hd (by simp) hm
        obtain ⟨two', mem2, t2', q2', hins, hrep2, -, -, hout2, href2⟩ :=
          (h.second.congr hag).insertNode order hp.node hb2
        have hd1 : (b :: (t2.addrs ++ q2)).Disjoint (t1'.addrs ++ q1) := by
          intro a ha ha1
          rcases List.mem_cons.mp ha with rfl | ha
          · exact hp.fresh ha1
          · exact hd (List.mem_cons_of_mem _ ha1) ha
        obtain ⟨hd2, hag2⟩ := Memory.frame_disjoint hout2 hd1 hp.represents.live
        obtain ⟨u, hu⟩ : ∃ u, unlinkedRef cmp one mem data = some u := by
          rcases h.first.cases order data with ⟨x, a, v, y, ht, hv, -⟩ | ⟨hnone, -⟩
          · obtain ⟨_, _, _, _, u, -, -, -, hu, -⟩ := popFromTree_found order h.first ht hv
            exact ⟨u, hu⟩
          · rw [hf] at hnone
            cases hnone
        refine ⟨one', two', mem2, t1', q1, t2', q2', ?_,
          ⟨hp.represents.congr hag2, hrep2, List.disjoint_symm hd2⟩, ?_, ?_⟩
        · simp [transfer, hrun', hins]
        · rw [href, poppedRefs, pickedRefs, hkey, Option.bind_some]
        · rw [href2, pickedRefs, hkey, Option.bind_some, hu, Option.map_some, Option.getD_some]

/-! ## Runs -/

/-- What fills and moves keep. -/
def PairOk (cmp : D → D → Int) (s : Pair D) : Prop :=
  ∃ t1 q1 t2 q2, Apart cmp s.one s.two s.mem t1 q1 t2 q2

theorem fillStep_ok (order : TotalOrder cmp) (s : Pair D) (i : Side × D) (h : PairOk cmp s) :
    ∃ s' o, fillStep cmp s i = some (s', o) ∧ PairOk cmp s' := by
  obtain ⟨t1, q1, t2, q2, h⟩ := h
  obtain ⟨side, data⟩ := i
  cases side with
  | first =>
    obtain ⟨one', mem', t', q', hrun, hrep, -, -, hout, -⟩ := h.first.insertData order data
    exact ⟨{ s with one := one', mem := mem' }, (), by simp [fillStep, hrun], t', q', t2, q2,
      h.local_step hrep hout⟩
  | second =>
    obtain ⟨two', mem', t', q', hrun, hrep, -, -, hout, -⟩ := h.second.insertData order data
    exact ⟨{ s with two := two', mem := mem' }, (), by simp [fillStep, hrun], t1, q1, t', q',
      (h.swap.local_step hrep hout).swap⟩

/-- A transfer keeps the sum of the counts exactly when it unlinks a single reference. -/
theorem sum_of_transfer {one' two' : Bintree D} {pick : Pick D}
    (hone : bintreeGetRefnum one' = bintreeGetRefnum one - (pickedRefs cmp one mem pick).getD 0)
    (htwo : bintreeGetRefnum two' =
      bintreeGetRefnum two + ((pickedRefs cmp one mem pick).map fun _ => 1).getD 0) :
    (bintreeGetRefnum one').toInt + (bintreeGetRefnum two').toInt =
        (bintreeGetRefnum one).toInt + (bintreeGetRefnum two).toInt ↔ UnlinksSingle cmp one two mem pick := by
  rw [UnlinksSingle, hone, htwo]
  cases pickedRefs cmp one mem pick with
  | none => simp
  | some u =>
    rw [Option.map_some, Option.getD_some, Option.getD_some, sum_kept_iff]
    simp

/-- A move keeps the count exactly when it unlinks a single reference. -/
theorem moveStep_ok (order : TotalOrder cmp) (s : Pair D) (i : Side × Pick D) (h : PairOk cmp s) :
    ∃ s' o, moveStep cmp s i = some (s', o) ∧ PairOk cmp s' ∧ (refs s' = refs s ↔ MovesSingle cmp s i) := by
  obtain ⟨t1, q1, t2, q2, h⟩ := h
  obtain ⟨side, pick⟩ := i
  cases side with
  | first =>
    obtain ⟨one', two', mem', t1', q1', t2', q2', hrun, hap, hone, htwo⟩ := transfer_spec order h pick
    exact ⟨⟨one', two', mem'⟩, (), by simp [moveStep, hrun], ⟨t1', q1', t2', q2', hap⟩,
      sum_of_transfer hone htwo⟩
  | second =>
    obtain ⟨two', one', mem', t2', q2', t1', q1', hrun, hap, htwo, hone⟩ := transfer_spec order h.swap pick
    refine ⟨⟨one', two', mem'⟩, (), by simp [moveStep, hrun], ⟨t1', q1', t2', q2', hap.swap⟩, ?_⟩
    simp only [refs, MovesSingle]
    rw [Int.add_comm, Int.add_comm (bintreeGetRefnum s.one).toInt]
    exact sum_of_transfer htwo hone

theorem moveStep_returns (order : TotalOrder cmp) (s : Pair D) (i : Side × Pick D) (h : PairOk cmp s) :
    ∃ s' o, moveStep cmp s i = some (s', o) ∧ PairOk cmp s' := by
  obtain ⟨s', o, hrun, hs', -⟩ := moveStep_ok order s i h
  exact ⟨s', o, hrun, hs'⟩

theorem moveStep_keeps (order : TotalOrder cmp) (count : Int) (s : Pair D) (i : Side × Pick D) (s' : Pair D)
    (o : Unit) (h : PairOk cmp s ∧ refs s = count) (hstep : moveStep cmp s i = some (s', o)) :
    (MovesSingle cmp s i → PairOk cmp s' ∧ refs s' = count) ∧
      (refs s' = count → MovesSingle cmp s i) := by
  obtain ⟨hs, hrefs⟩ := h
  obtain ⟨t, o', hrun, ht, hiff⟩ := moveStep_ok order s i hs
  cases hrun.symm.trans hstep
  rw [← hiff, hrefs]
  exact ⟨fun h => ⟨ht, h⟩, id⟩

theorem moveStep_faults (order : TotalOrder cmp) (count : Int) (s : Pair D) (i : Side × Pick D)
    (h : PairOk cmp s ∧ refs s = count) (hstep : moveStep cmp s i = none) : MovesSingle cmp s i := by
  obtain ⟨s', o, hrun, -⟩ := moveStep_returns order s i h.1
  cases hrun.symm.trans hstep

/-- After every transfer of the list the counts add up to what they were. -/
def Conserved (cmp : D → D → Int) (s : Pair D) (moves : List (Side × Pick D)) : Prop :=
  ∀ k s' os, run (moveStep cmp) s (moves.take k) = some (s', os) → refs s' = refs s

/-- Filling and moving always returns. Two filled trees conserve their count over
a list of transfers exactly when every transfer unlinks a single reference. -/
theorem transfers_conserve_iff (order : TotalOrder cmp) (mem : Mem D) (fills : List (Side × D))
    (moves : List (Side × Pick D)) :
    ∃ s os, run (fillStep cmp) ⟨makeBintree, makeBintree, mem⟩ fills = some (s, os) ∧
      (∃ s' os', run (moveStep cmp) s moves = some (s', os')) ∧
      (Conserved cmp s moves ↔ Guarded (moveStep cmp) (MovesSingle cmp) s moves) := by
  have hmake : PairOk cmp ⟨makeBintree, makeBintree, mem⟩ :=
    ⟨.nil, [], .nil, [], represents_make mem, represents_make mem, by simp [List.Disjoint]⟩
  obtain ⟨s, os, hfill, hs⟩ :=
    run_total (fun s i h _ => fillStep_ok order s i h) hmake (guarded_trivial _ fills)
  obtain ⟨s', os', hrun, -⟩ := run_total (fun s i h _ => moveStep_returns order s i h) hs (guarded_trivial s moves)
  exact ⟨s, os, hfill, ⟨s', os', hrun⟩,
    prefixes_iff_guarded (fun _ h => h.2) (moveStep_keeps order (refs s)) (moveStep_faults order (refs s))
      ⟨hs, rfl⟩ moves⟩

theorem transfers_conserve_iff_run :
    ∃ s os, run (fillStep bintreecmpInt32) ⟨makeBintree, makeBintree, ⟨[]⟩⟩
        [(.first, 5), (.first, 7), (.second, 7), (.first, 6)] = some (s, os) ∧
      (∃ s' os', run (moveStep bintreecmpInt32) s [(.first, .top), (.second, .bottom), (.first, .value 6)] =
        some (s', os')) ∧
      (Conserved bintreecmpInt32 s [(.first, .top), (.second, .bottom), (.first, .value 6)] ↔
        Guarded (moveStep bintreecmpInt32) (MovesSingle bintreecmpInt32) s
          [(.first, .top), (.second, .bottom), (.first, .value 6)]) :=
  transfers_conserve_iff bintreecmpInt32_order _ _ _

/-- Moving the node of a key that is held twice loses one reference. -/
theorem transfer_loses_reference :
    ∃ s os, run (fillStep bintreecmpInt32) ⟨makeBintree, makeBintree, ⟨[]⟩⟩
        [(.first, 5), (.first, 7), (.first, 7)] = some (s, os) ∧
      ¬ Conserved bintreecmpInt32 s [(.first, .top)] :=
  ⟨_, _, rfl, fun h => absurd (h 1 _ _ rfl) (by decide +kernel)⟩

end Devclego.Tree

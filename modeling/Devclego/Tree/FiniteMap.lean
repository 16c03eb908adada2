import Devclego.Tree.Calls

/-!
# The tree as a finite map

The abstract object is a map from keys to the newest datum of the key and its
multiplicity. Keys are compared, never identified, so a map is a function that
is asked with any datum. Its multiplicities are numbers, those of the nodes are
words. Every run of the five map operations from a made tree that keeps the
multiplicities in the word returns, keeps a strict search tree, and follows this map.
-/
namespace Devclego.Tree

open Foundation

variable {D : Type}

inductive MapOp (D : Type) where
  | insertData (data : D)
  | insertNode (node : Addr) (e : Stored D)
  | deleteValue (data : D)
  | popNode (data : D)
  | hasValue (data : D)

def MapOp.op : MapOp D → Op D
  | .insertData data => .insertData data
  | .insertNode node e => .insertNode node e
  | .deleteValue data => .deleteValue data
  | .popNode data => .popNode data
  | .hasValue data => .hasValue data

def mapStep (cmp : D → D → Int) (s : Bintree D × Mem D) (o : MapOp D) :
    Option ((Bintree D × Mem D) × Ret D) :=
  exec cmp s o.op

/-- Adding multiplicity to a key and making `e.data` its datum. -/
def mapInsert (cmp : D → D → Int) (m : D → Option (Entry D)) (e : Entry D) : D → Option (Entry D) :=
  fun k => if cmp k e.data = 0 then some ⟨e.data, ((m k).map Entry.ref).getD 0 + e.ref⟩ else m k

/-- Taking one off a key; at zero the key is gone. -/
def mapTake (cmp : D → D → Int) (m : D → Option (Entry D)) (d : D) : D → Option (Entry D) :=
  fun k =>
    if cmp k d = 0 then
      (m k).bind fun e => if e.ref - 1 = 0 then none else some ⟨e.data, e.ref - 1⟩
    else m k

def mapRemove (cmp : D → D → Int) (m : D → Option (Entry D)) (d : D) : D → Option (Entry D) :=
  fun k => if cmp k d = 0 then none else m k

def mapSpec (cmp : D → D → Int) (m : D → Option (Entry D)) :
    MapOp D → (D → Option (Entry D)) × Answer D
  | .insertData data => (mapInsert cmp m ⟨data, 1⟩, .unit)
  | .insertNode _ e => (mapInsert cmp m e.widen, .unit)
  | .deleteValue data => (mapTake cmp m data, .unit)
  | .popNode data => (mapRemove cmp m data, .entry (m data))
  | .hasValue data => (m, .flag (m data).isSome)

/-- A strict binary search tree hangs from the root, no node twice, and the map
read off its nodes is `m`. -/
def ReadsAs (cmp : D → D → Int) (this : Bintree D) (mem : Mem D) (m : D → Option (Entry D)) : Prop :=
  ∃ t : Shape (Stored D), this.root = t.ptr ∧ t.Holds nodeCell mem ∧ t.addrs.Nodup ∧
    Increasing cmp nodeKey t.inorder ∧ Tally.find cmp (Tally.widen t.vals) = m

/-- How often the tree holds the key. -/
def heldRefs (cmp : D → D → Int) (this : Bintree D) (mem : Mem D) (data : D) : Int :=
  ((storedRef cmp this mem data).map Int32.toInt).getD 0

/-- What is put into the tree carries a reference at least, and the multiplicity of its
key stays in the word. -/
def RefsFit (cmp : D → D → Int) : Bintree D × Mem D → Op D → Prop
  | (this, mem), .insertData data => heldRefs cmp this mem data + 1 < 2147483648
  | (this, mem), .insertNode _ e => 1 ≤ e.ref.toInt ∧ heldRefs cmp this mem e.data + e.ref.toInt < 2147483648
  | _, _ => True

instance (cmp : D → D → Int) (s : Bintree D × Mem D) (op : Op D) : Decidable (RefsFit cmp s op) :=
  match s, op with
  | (this, mem), .insertData data => inferInstanceAs (Decidable (heldRefs cmp this mem data + 1 < 2147483648))
  | (this, mem), .insertNode _ e => inferInstanceAs
      (Decidable (1 ≤ e.ref.toInt ∧ heldRefs cmp this mem e.data + e.ref.toInt < 2147483648))
  | _, .deleteValue _ => isTrue trivial
  | _, .popNode _ => isTrue trivial
  | _, .popTopNode => isTrue trivial
  | _, .popBottomNode => isTrue trivial
  | _, .popTopData => isTrue trivial
  | _, .popBottomData => isTrue trivial
  | _, .hasValue _ => isTrue trivial
  | _, .getTopData => isTrue trivial
  | _, .getBottomData => isTrue trivial

variable {cmp : D → D → Int} {this : Bintree D} {mem : Mem D} {t : Shape (Stored D)} {q : List Addr}

theorem Represents.heldRefs (order : TotalOrder cmp) (h : Represents cmp this mem t q) (data : D) :
    heldRefs cmp this mem data = Tally.mult cmp (Tally.widen t.vals) data := by
  rw [Tree.heldRefs, h.storedRef order, Tally.mult, Tally.find_widen]
  cases Tally.find cmp t.vals data <;> rfl

/-- An insertion within the word is one of the numbers. -/
theorem Represents.widen_add (order : TotalOrder cmp) (h : Represents cmp this mem t q)
    (hwf : Tally.Wf cmp (Tally.widen t.vals)) {e : Stored D} (he : 1 ≤ e.ref.toInt)
    (hfit : Tree.heldRefs cmp this mem e.data + e.ref.toInt < 2147483648) :
    Tally.widen (Tally.add cmp e t.vals) = Tally.add cmp e.widen (Tally.widen t.vals) := by
  rw [h.heldRefs order] at hfit
  have hnonneg := hwf.mult_nonneg e.data
  exact Tally.widen_add order h.sorted (by omega) hfit

theorem Represents.wf_add (order : TotalOrder cmp) (h : Represents cmp this mem t q)
    (hwf : Tally.Wf cmp (Tally.widen t.vals)) {e : Stored D} (he : 1 ≤ e.ref.toInt)
    (hfit : Tree.heldRefs cmp this mem e.data + e.ref.toInt < 2147483648) :
    Tally.Wf cmp (Tally.widen (Tally.add cmp e t.vals)) := by
  rw [h.widen_add order hwf he hfit]
  exact hwf.add order he

/-- A datum goes into a tree whose references and one more fit in the word. -/
theorem Represents.insertOne (order : TotalOrder cmp) (h : Represents cmp this mem t q) (hs : Sharp this t)
    (hwf : Tally.Wf cmp (Tally.widen t.vals)) (data : D) (hroom : Tally.total (Tally.widen t.vals) < 2147483647) :
    ∃ this' mem' t' q', bintreeInsertData cmp this mem data = some (this', mem') ∧
      Represents cmp this' mem' t' q' ∧ Sharp this' t' ∧ Tally.Wf cmp (Tally.widen t'.vals) ∧
      Tally.widen t'.vals = Tally.add cmp ⟨data, 1⟩ (Tally.widen t.vals) ∧
      mem'.outside (t'.addrs ++ q') = mem.outside (t.addrs ++ q) ∧
      bintreeGetRefnum this' = bintreeGetRefnum this + 1 := by
  obtain ⟨this', mem', t', q', hrun, hrep, hsharp, hvals, hout, href⟩ := h.insertData order data
  have hle := hwf.mult_le_total order data
  have hfit : Tree.heldRefs cmp this mem data + 1 < 2147483648 := by
    rw [h.heldRefs order]
    omega
  have hadd : Tally.widen t'.vals = Tally.add cmp ⟨data, 1⟩ (Tally.widen t.vals) := by
    rw [hvals]
    exact h.widen_add order hwf (e := ⟨data, 1⟩) (show (1 : Int) ≤ 1 by decide) hfit
  have hwf' : Tally.Wf cmp (Tally.widen t'.vals) := hadd ▸ hwf.add order (Int.le_refl 1)
  have hsize : t'.size ≤ 4294967296 := by
    have hlen := hwf'.length_le_total
    rw [hadd, Tally.total_add, ← hadd, Tally.length_widen, Shape.length_vals] at hlen
    change (t'.size : Int) ≤ _ + 1 at hlen
    omega
  exact ⟨this', mem', t', q', hrun, hrep, hsharp hs hsize, hwf', hadd, hout, href⟩

theorem wf_widen_takeOne (order : TotalOrder cmp) {xs : List (Stored D)} (h : Tally.Wf cmp (Tally.widen xs))
    (d : D) : Tally.Wf cmp (Tally.widen (Tally.takeOne cmp d xs)) := by
  rw [Tally.widen_takeOne]
  exact h.takeOne order d

theorem wf_widen_drop (order : TotalOrder cmp) {xs : List (Stored D)} (h : Tally.Wf cmp (Tally.widen xs))
    (d : D) : Tally.Wf cmp (Tally.widen (Tally.drop cmp d xs)) := by
  rw [Tally.widen_drop]
  exact h.adjust order Tally.proper_none d

/-- Every call that fits keeps the multiplicities positive. -/
theorem tallyExec_wf (order : TotalOrder cmp) (h : Represents cmp this mem t q)
    (hwf : Tally.Wf cmp (Tally.widen t.vals)) (ends : Ends D) {op : Op D} (hfit : RefsFit cmp (this, mem) op) :
    Tally.Wf cmp (Tally.widen (tallyExec cmp ends t.vals op).1) := by
  have hdrop : ∀ e : Option (Stored D), Tally.Wf cmp (Tally.widen (dropAt cmp t.vals e)) := fun e =>
    match e with
    | none => hwf
    | some e => wf_widen_drop order hwf e.data
  have htake : ∀ e : Option (Stored D), Tally.Wf cmp (Tally.widen (takeAt cmp t.vals e)) := fun e =>
    match e with
    | none => hwf
    | some e => wf_widen_takeOne order hwf e.data
  cases op with
  | insertData data => exact h.wf_add order hwf (show (1 : Int) ≤ 1 by decide) hfit
  | insertNode node e => exact h.wf_add order hwf hfit.1 hfit.2
  | deleteValue data => exact wf_widen_takeOne order hwf data
  | popNode data => exact wf_widen_drop order hwf data
  | popTopNode => exact hdrop ends.top
  | popBottomNode => exact hdrop ends.bottom
  | popTopData => exact htake ends.top
  | popBottomData => exact htake ends.bottom
  | hasValue data => exact hwf
  | getTopData => exact hwf
  | getBottomData => exact hwf

/-- On multiplicities of at least one, the tally operation is the map operation. -/
theorem find_takeOne (order : TotalOrder cmp) {xs : List (Stored D)} (h : Tally.Wf cmp (Tally.widen xs)) (d : D) :
    Tally.find cmp (Tally.widen (Tally.takeOne cmp d xs)) =
      mapTake cmp (Tally.find cmp (Tally.widen xs)) d := by
  funext k
  rw [Tally.widen_takeOne, Tally.takeOne, Tally.find_adjust order h Tally.proper_lessOne, mapTake]
  cases hf : Tally.find cmp (Tally.widen xs) k with
  | none => rfl
  | some e =>
    have he := h.positive e (List.mem_of_find?_eq_some hf)
    have hbind : (some e).bind Tally.lessOne =
        (some e).bind fun e => if e.ref - 1 = 0 then none else some ⟨e.data, e.ref - 1⟩ := by
      simp only [Option.bind_some, Tally.lessOne]
      by_cases h1 : 1 < e.ref
      · rw [if_pos h1, if_neg (by omega)]
      · rw [if_neg h1, if_pos (by omega)]
    rw [hbind]

theorem find_drop (order : TotalOrder cmp) {xs : List (Stored D)} (h : Tally.Wf cmp (Tally.widen xs)) (d : D) :
    Tally.find cmp (Tally.widen (Tally.drop cmp d xs)) =
      mapRemove cmp (Tally.find cmp (Tally.widen xs)) d := by
  funext k
  rw [Tally.widen_drop, Tally.drop, Tally.find_adjust order h Tally.proper_none, mapRemove]
  cases Tally.find cmp (Tally.widen xs) k <;> rfl

theorem find_insert (order : TotalOrder cmp) (h : Represents cmp this mem t q)
    (hwf : Tally.Wf cmp (Tally.widen t.vals)) {e : Stored D} (he : 1 ≤ e.ref.toInt)
    (hfit : Tree.heldRefs cmp this mem e.data + e.ref.toInt < 2147483648) :
    Tally.find cmp (Tally.widen (Tally.add cmp e t.vals)) =
      mapInsert cmp (Tally.find cmp (Tally.widen t.vals)) e.widen := by
  funext k
  rw [h.widen_add order hwf he hfit, Tally.find_add order hwf]
  rfl

/-- The calls mean the map operations as long as the references fit. -/
theorem tallyExec_map (order : TotalOrder cmp) (h : Represents cmp this mem t q)
    (hwf : Tally.Wf cmp (Tally.widen t.vals)) (ends : Ends D) (o : MapOp D)
    (hfit : RefsFit cmp (this, mem) o.op) :
    Tally.find cmp (Tally.widen (tallyExec cmp ends t.vals o.op).1) =
        (mapSpec cmp (Tally.find cmp (Tally.widen t.vals)) o).1 ∧
      (tallyExec cmp ends t.vals o.op).2 = (mapSpec cmp (Tally.find cmp (Tally.widen t.vals)) o).2 := by
  cases o with
  | insertData data => exact ⟨find_insert order h hwf (show (1 : Int) ≤ 1 by decide) hfit, rfl⟩
  | insertNode node e => exact ⟨find_insert order h hwf hfit.1 hfit.2, rfl⟩
  | deleteValue data => exact ⟨find_takeOne order hwf data, rfl⟩
  | popNode data =>
    refine ⟨find_drop order hwf data, ?_⟩
    simp only [mapSpec, MapOp.op, tallyExec, Tally.find_widen]
  | hasValue data =>
    refine ⟨rfl, ?_⟩
    simp only [mapSpec, MapOp.op, tallyExec, Tally.find_widen, Option.isSome_map]

/-- The relation that carries the refinement. -/
def MapRel (cmp : D → D → Int) (s : Bintree D × Mem D) (m : D → Option (Entry D)) : Prop :=
  ∃ t q, Represents cmp s.1 s.2 t q ∧ Tally.Wf cmp (Tally.widen t.vals) ∧
    Tally.find cmp (Tally.widen t.vals) = m

theorem mapStep_refines (order : TotalOrder cmp) (s : Bintree D × Mem D) (m : D → Option (Entry D))
    (o : MapOp D) (hrel : MapRel cmp s m) (ho : Callable s o.op ∧ RefsFit cmp s o.op) :
    ∃ s' ret, mapStep cmp s o = some (s', ret) ∧ MapRel cmp s' (mapSpec cmp m o).1 ∧
      Shows ret (mapSpec cmp m o).2 := by
  obtain ⟨this, mem⟩ := s
  obtain ⟨t, q, hrep, hwf, rfl⟩ := hrel
  obtain ⟨this', mem', ret, t', q', hrun, hrep', -, hvals, hshow, -⟩ := exec_spec order hrep ho.1
  obtain ⟨hmap, hans⟩ := tallyExec_map order hrep hwf (cachedEnds this mem) o ho.2
  refine ⟨(this', mem'), ret, hrun, ⟨t', q', hrep', ?_, ?_⟩, ?_⟩
  · rw [hvals]
    exact tallyExec_wf order hrep hwf _ ho.2
  · rw [hvals, hmap]
  · rw [← hans]
    exact hshow

/-- Every run of map operations from a made tree whose references fit returns, and
after it the tree is a strict search tree that reads as the abstract map. The prefixes
of a run are runs, so this holds after every step. -/
theorem tree_refines_map (order : TotalOrder cmp) (mem : Mem D) (ops : List (MapOp D))
    (hops : Guarded (mapStep cmp) (fun s o => Callable s o.op ∧ RefsFit cmp s o.op) (makeBintree, mem) ops) :
    ∃ this' mem' rets, run (mapStep cmp) (makeBintree, mem) ops = some ((this', mem'), rets) ∧
      ReadsAs cmp this' mem' (specRun (mapSpec cmp) (fun _ => none) ops).1 ∧
      List.Forall₂ Shows rets (specRun (mapSpec cmp) (fun _ => none) ops).2 := by
  have hrel : MapRel cmp (makeBintree, mem) fun _ => none :=
    ⟨.nil, [], represents_make mem, ⟨increasing_nil, nofun⟩, rfl⟩
  obtain ⟨⟨this', mem'⟩, rets, hrun, ⟨t, q, hrep, -, hmap⟩, hshows⟩ :=
    run_refines (mapStep_refines order) hrel hops
  exact ⟨this', mem', rets, hrun, ⟨t, hrep.root, hrep.holds, hrep.nodup, hrep.increasing, hmap⟩, hshows⟩

/-! ## An instance -/

theorem bintreecmpInt32_order : TotalOrder bintreecmpInt32 where
  antisymm a b := by
    unfold bintreecmpInt32
    split <;> split <;> omega
  trans a b c := by
    unfold bintreecmpInt32
    split <;> split <;> omega

/-- A childless node is not reached from an empty tree, nor pooled by a new one. -/
theorem spare_make {e : Stored D} (node : Addr) (hread : mem.read node = some (nodeCell e none none)) :
    Spare makeBintree mem node e where
  stored := hread
  unlinked := nofun
  unpooled := by
    intro hm
    simp [makeBintree, Puffers.datapufferCtor] at hm

/-- A caller's node of multiplicity three, merged, counted down and popped. -/
theorem tree_refines_map_run :
    ∃ this' mem' rets,
      run (mapStep bintreecmpInt32) (makeBintree, ⟨[some (nodeCell ⟨5, 3⟩ none none)]⟩)
        [.insertNode 0 ⟨5, 3⟩, .insertData 2, .insertData 5, .deleteValue 2, .popNode 5, .hasValue 5] =
          some ((this', mem'), rets) ∧
      ReadsAs bintreecmpInt32 this' mem' (specRun (mapSpec bintreecmpInt32) (fun _ => none)
        [.insertNode 0 ⟨5, 3⟩, .insertData 2, .insertData 5, .deleteValue 2, .popNode 5, .hasValue 5]).1 ∧
      List.Forall₂ Shows rets (specRun (mapSpec bintreecmpInt32) (fun _ => none)
        [.insertNode 0 ⟨5, 3⟩, .insertData 2, .insertData 5, .deleteValue 2, .popNode 5, .hasValue 5]).2 := by
  refine tree_refines_map bintreecmpInt32_order _ _ ?_
  refine (guarded_cons rfl).mpr ⟨⟨spare_make 0 rfl, by decide +kernel⟩, ?_⟩
  refine (guarded_cons rfl).mpr ⟨⟨trivial, by decide +kernel⟩, ?_⟩
  refine (guarded_cons rfl).mpr ⟨⟨trivial, by decide +kernel⟩, ?_⟩
  exact ⟨⟨trivial, trivial⟩, fun _ _ _ => ⟨⟨trivial, trivial⟩, fun _ _ _ => ⟨⟨trivial, trivial⟩,
    fun _ _ _ => trivial⟩⟩⟩

/-- One more than the largest word: the sum of the references is negative, so the next
deletion takes the key away while it is still held more than two billion times. -/
theorem refs_overflow :
    ∃ s rets, run (mapStep bintreecmpInt32) (makeBintree, ⟨[some (nodeCell ⟨5, 2147483647⟩ none none)]⟩)
        [.insertNode 0 ⟨5, 2147483647⟩, .insertData 5, .deleteValue 5] = some (s, rets) ∧
      Guarded (mapStep bintreecmpInt32) (fun s o => Callable s o.op)
        (makeBintree, ⟨[some (nodeCell ⟨5, 2147483647⟩ none none)]⟩)
        [.insertNode 0 ⟨5, 2147483647⟩, .insertData 5, .deleteValue 5] ∧
      ¬ ReadsAs bintreecmpInt32 s.1 s.2 (specRun (mapSpec bintreecmpInt32) (fun _ => none)
        [.insertNode 0 ⟨5, 2147483647⟩, .insertData 5, .deleteValue 5]).1 := by
  refine ⟨_, _, rfl, ⟨spare_make 0 rfl, fun _ _ _ => ⟨trivial, fun _ _ _ => ⟨trivial, fun _ _ _ => trivial⟩⟩⟩, ?_⟩
  intro hreads
  obtain ⟨t, hroot, -, -, -, hmap⟩ := hreads
  obtain rfl : t = .nil := Shape.ptr_eq_none_iff.mp (hroot.symm.trans rfl)
  exact absurd (congrFun hmap 5) (by decide +kernel)

end Devclego.Tree

import Devclego.Tree.Calls
import Devclego.Tree.FiniteMap

/-!
# The two counters

`node_counter` follows the nodes. `duplicate_counter` follows the cell that leaves
the links, so it goes wrong when a node with two children is removed and its
predecessor carries another multiplicity than the removed entry. As long as no step
does that and the references in the tree fit in the word, `bintree_get_refnum` is the
sum of the multiplicities.
-/
namespace Devclego.Tree

open Foundation

variable {D : Type} {cmp : D → D → Int} {this : Bintree D} {mem : Mem D} {t : Shape (Stored D)}
  {q : List Addr}

/-- The counters agree with the nodes reachable from the root. -/
def CountersExact (this : Bintree D) (mem : Mem D) : Prop :=
  ∃ t : Shape (Stored D), this.root = t.ptr ∧ t.Holds nodeCell mem ∧ t.addrs.Nodup ∧
    (bintreeGetNodenum this).toInt = t.size ∧
    (bintreeGetRefnum this).toInt = Tally.total (Tally.widen t.vals)

/-- The references stored in the nodes, added up. -/
def storedRefs (this : Bintree D) (mem : Mem D) : Int := Tally.total (Tally.widen (storedEntries this mem))

/-- The count of an insertion fits in the word. -/
def CountFits : Bintree D × Mem D → Op D → Prop
  | (this, mem), .insertData _ => storedRefs this mem + 1 < 2147483648
  | _, _ => True

/-- Calls that hand no node of the caller to the tree. -/
def Op.KeepsNodes : Op D → Prop
  | .insertNode _ _ => False
  | _ => True

/-- The call does not unlink a cell of another multiplicity than it removes. -/
def CountsRight (cmp : D → D → Int) : Bintree D × Mem D → Op D → Prop
  | (this, mem), .deleteValue data =>
    storedRef cmp this mem data = some 1 → unlinkedRef cmp this mem data = some 1
  | (this, mem), .popNode data => unlinkedRef cmp this mem data = storedRef cmp this mem data
  | _, _ => True

instance : DecidablePred (Op.KeepsNodes (D := D)) := fun op =>
  match op with
  | .insertNode _ _ => isFalse id
  | .insertData _ => isTrue trivial
  | .deleteValue _ => isTrue trivial
  | .popNode _ => isTrue trivial
  | .popTopNode => isTrue trivial
  | .popBottomNode => isTrue trivial
  | .popTopData => isTrue trivial
  | .popBottomData => isTrue trivial
  | .hasValue _ => isTrue trivial
  | .getTopData => isTrue trivial
  | .getBottomData => isTrue trivial

instance (cmp : D → D → Int) (s : Bintree D × Mem D) (op : Op D) : Decidable (CountsRight cmp s op) :=
  match s, op with
  | (this, mem), .deleteValue data => inferInstanceAs (Decidable
      (storedRef cmp this mem data = some 1 → unlinkedRef cmp this mem data = some 1))
  | (this, mem), .popNode data => inferInstanceAs (Decidable
      (unlinkedRef cmp this mem data = storedRef cmp this mem data))
  | _, .insertNode _ _ => isTrue trivial
  | _, .insertData _ => isTrue trivial
  | _, .popTopNode => isTrue trivial
  | _, .popBottomNode => isTrue trivial
  | _, .popTopData => isTrue trivial
  | _, .popBottomData => isTrue trivial
  | _, .hasValue _ => isTrue trivial
  | _, .getTopData => isTrue trivial
  | _, .getBottomData => isTrue trivial

instance (s : Bintree D × Mem D) (op : Op D) : Decidable (CountFits s op) :=
  match s, op with
  | (this, mem), .insertData _ => inferInstanceAs (Decidable (storedRefs this mem + 1 < 2147483648))
  | _, .insertNode _ _ => isTrue trivial
  | _, .deleteValue _ => isTrue trivial
  | _, .popNode _ => isTrue trivial
  | _, .popTopNode => isTrue trivial
  | _, .popBottomNode => isTrue trivial
  | _, .popTopData => isTrue trivial
  | _, .popBottomData => isTrue trivial
  | _, .hasValue _ => isTrue trivial
  | _, .getTopData => isTrue trivial
  | _, .getBottomData => isTrue trivial

/-- An extreme node has at most one child, so it is unlinked itself. -/
theorem Represents.unlinkedRef_top (order : TotalOrder cmp) (h : Represents cmp this mem t q)
    {e : Stored D} {k : D} (he : t.vals.getLast? = some e) (hk : cmp k e.data = 0) :
    unlinkedRef cmp this mem k = some e.ref := by
  rcases List.eq_nil_or_concat' t.inorder with hnil | ⟨x, ⟨a, v⟩, hx⟩
  · simp [Shape.vals, hnil] at he
  · obtain rfl : v = e := by simpa [Shape.vals, hx] using he
    obtain ⟨k, l, rfl, -⟩ := Trail.exists_plug_last h.nodup hx
    exact (popFromTree_single order h hk (Or.inr rfl) 0).1

theorem Represents.unlinkedRef_bottom (order : TotalOrder cmp) (h : Represents cmp this mem t q)
    {e : Stored D} {k : D} (he : t.vals.head? = some e) (hk : cmp k e.data = 0) :
    unlinkedRef cmp this mem k = some e.ref := by
  cases hin : t.inorder with
  | nil => simp [Shape.vals, hin] at he
  | cons u y =>
    obtain ⟨a, v⟩ := u
    obtain rfl : v = e := by simpa [Shape.vals, hin] using he
    obtain ⟨k, r, rfl, -⟩ := Trail.exists_plug_first h.nodup hin
    exact (popFromTree_single order h hk (Or.inl rfl) 0).1

/-- A delete that counts right takes one off the count exactly when it finds the
key. -/
theorem Represents.deletedRefs (order : TotalOrder cmp) (h : Represents cmp this mem t q)
    (hwf : Tally.Wf cmp (Tally.widen t.vals)) (data : D)
    (hright : Tree.storedRef cmp this mem data = some 1 → unlinkedRef cmp this mem data = some 1) :
    deletedRefs cmp this mem data = if (Tally.find cmp t.vals data).isSome then 1 else 0 := by
  have hs := h.storedRef order data
  cases hf : Tally.find cmp t.vals data with
  | none => simp [Tree.deletedRefs, hs, hf]
  | some e =>
    have he := Tally.pos_of_wf hwf (List.mem_of_find?_eq_some hf)
    rw [hf, Option.map_some] at hs
    by_cases h1 : 1 < e.ref
    · simp [Tree.deletedRefs, hs, h1]
    · have hone : e.ref = 1 := eq_one_of_pos he h1
      simp [Tree.deletedRefs, hs, hone, hright (by rw [hs, hone])]

/-- Taking one reference off a key, as numbers and as the count makes it. -/
theorem total_widen_takeOne (order : TotalOrder cmp) {xs : List (Stored D)}
    (hwf : Tally.Wf cmp (Tally.widen xs)) (data : D) :
    Tally.total (Tally.widen (Tally.takeOne cmp data xs)) =
      Tally.total (Tally.widen xs) + (-(if (Tally.find cmp xs data).isSome then 1 else 0 : Int32)).toInt := by
  rw [Tally.widen_takeOne, Tally.total_takeOne order hwf, Tally.find_widen, Option.isSome_map]
  split
  · rfl
  · exact (Int.sub_zero _).trans (Int.add_zero _).symm

/-- Dropping a key that holds `u` references. -/
theorem total_widen_drop (order : TotalOrder cmp) {xs : List (Stored D)}
    (hwf : Tally.Wf cmp (Tally.widen xs)) {data : D} {u : Int32}
    (hu : ((Tally.find cmp xs data).map Entry.ref).getD 0 = u) :
    Tally.total (Tally.widen (Tally.drop cmp data xs)) = Tally.total (Tally.widen xs) + (-u).toInt := by
  have hmult : Tally.mult cmp (Tally.widen xs) data = u.toInt := by
    rw [Tally.mult, Tally.find_widen, ← hu]
    cases Tally.find cmp xs data <;> rfl
  have hnonneg := hwf.mult_nonneg data
  rw [Tally.widen_drop, Tally.total_drop order hwf, hmult, toInt_neg_of_lt (by omega)]
  omega

/-- What the invariant of the counters says of a tree record. -/
structure CountsAll (cmp : D → D → Int) (s : Bintree D × Mem D) (t : Shape (Stored D)) (q : List Addr) : Prop where
  represents : Represents cmp s.1 s.2 t q
  sharp : Sharp s.1 t
  wf : Tally.Wf cmp (Tally.widen t.vals)
  refnum : (bintreeGetRefnum s.1).toInt = Tally.total (Tally.widen t.vals)

/-- The references are at least as many as the nodes, and their sum is a word. -/
theorem CountsAll.size_le {s : Bintree D × Mem D} (h : CountsAll cmp s t q) :
    (t.size : Int) ≤ (bintreeGetRefnum s.1).toInt ∧ t.size < 2147483648 := by
  have hlen := h.wf.length_le_total
  rw [Tally.length_widen, Shape.length_vals, ← h.refnum] at hlen
  have hword := (toInt_bounds (bintreeGetRefnum s.1)).2
  exact ⟨hlen, by omega⟩

/-- A call that counts right moves the count by what the tally gains or loses. -/
theorem refnumChange_total (order : TotalOrder cmp) (h : CountsAll cmp (this, mem) t q) {op : Op D}
    (hkeep : op.KeepsNodes) (hright : CountsRight cmp (this, mem) op) (hfit : RefsFit cmp (this, mem) op) :
    Tally.total (Tally.widen (tallyExec cmp (cachedEnds this mem) t.vals op).1) =
      Tally.total (Tally.widen t.vals) + (refnumChange cmp (this, mem) op).toInt := by
  obtain ⟨hrep, hsharp, hwf, -⟩ := h
  have htop : (cachedEnds this mem).top = t.vals.getLast? := hrep.cachedEntry_top hsharp
  have hbottom : (cachedEnds this mem).bottom = t.vals.head? := hrep.cachedEntry_bottom hsharp
  have hfound : ∀ {e : Stored D}, e ∈ t.vals → Tally.find cmp t.vals e.data = some e :=
    fun he => Tally.find_of_mem order hrep.sorted he
  cases op with
  | insertData data =>
    have hadd := hrep.widen_add order hwf (e := ⟨data, 1⟩) (show (1 : Int) ≤ 1 by decide) hfit
    simp only [tallyExec, refnumChange, hadd, Tally.total_add]
    rfl
  | insertNode node e => exact absurd hkeep id
  | deleteValue data =>
    simp only [tallyExec, refnumChange, total_widen_takeOne order hwf, hrep.deletedRefs order hwf data hright]
  | popNode data =>
    refine total_widen_drop order hwf ?_
    rw [poppedRefs, hright, hrep.storedRef order]
  | popTopNode =>
    cases he : t.vals.getLast? with
    | none => simp [tallyExec, refnumChange, htop, he, dropAt]
    | some e =>
      simp only [tallyExec, refnumChange, htop, he, dropAt, Option.map_some, Option.getD_some]
      refine total_widen_drop order hwf ?_
      rw [poppedRefs, hrep.unlinkedRef_top order he (order.refl _), hfound (List.mem_of_getLast? he)]
      rfl
  | popBottomNode =>
    cases he : t.vals.head? with
    | none => simp [tallyExec, refnumChange, hbottom, he, dropAt]
    | some e =>
      simp only [tallyExec, refnumChange, hbottom, he, dropAt, Option.map_some, Option.getD_some]
      refine total_widen_drop order hwf ?_
      rw [poppedRefs, hrep.unlinkedRef_bottom order he (order.refl _), hfound (List.mem_of_head? he)]
      rfl
  | popTopData =>
    cases he : t.vals.getLast? with
    | none => simp [tallyExec, refnumChange, htop, he, takeAt]
    | some e =>
      have hd := hrep.deletedRefs order hwf e.data fun hs => by
        rw [hrep.unlinkedRef_top order he (order.refl _), ← hs, hrep.storedRef order,
          hfound (List.mem_of_getLast? he)]
        rfl
      simp only [tallyExec, refnumChange, htop, he, takeAt, Option.map_some, Option.getD_some, hd,
        total_widen_takeOne order hwf]
  | popBottomData =>
    cases he : t.vals.head? with
    | none => simp [tallyExec, refnumChange, hbottom, he, takeAt]
    | some e =>
      have hd := hrep.deletedRefs order hwf e.data fun hs => by
        rw [hrep.unlinkedRef_bottom order he (order.refl _), ← hs, hrep.storedRef order,
          hfound (List.mem_of_head? he)]
        rfl
      simp only [tallyExec, refnumChange, hbottom, he, takeAt, Option.map_some, Option.getD_some, hd,
        total_widen_takeOne order hwf]
  | hasValue data => exact (Int.add_zero _).symm
  | getTopData => exact (Int.add_zero _).symm
  | getBottomData => exact (Int.add_zero _).symm

theorem CountsAll.exact {s : Bintree D × Mem D} (h : CountsAll cmp s t q) : CountersExact s.1 s.2 := by
  refine ⟨t, h.represents.root, h.represents.holds, h.represents.nodup, ?_, h.refnum⟩
  rw [bintreeGetNodenum, h.represents.count]
  exact toInt_ofNat_of_lt h.size_le.2

/-- A count that fits keeps the multiplicity of the key in the word. -/
theorem CountsAll.refsFit (order : TotalOrder cmp) (h : CountsAll cmp (this, mem) t q) {op : Op D}
    (hkeep : op.KeepsNodes) (hfit : CountFits (this, mem) op) : RefsFit cmp (this, mem) op := by
  cases op with
  | insertData data =>
    have hle := h.wf.mult_le_total order data
    have hroom : storedRefs this mem + 1 < 2147483648 := hfit
    rw [storedRefs, h.represents.storedEntries] at hroom
    change heldRefs cmp this mem data + 1 < 2147483648
    rw [h.represents.heldRefs order]
    omega
  | insertNode node e => exact absurd hkeep id
  | deleteValue data => trivial
  | popNode data => trivial
  | popTopNode => trivial
  | popBottomNode => trivial
  | popTopData => trivial
  | popBottomData => trivial
  | hasValue data => trivial
  | getTopData => trivial
  | getBottomData => trivial

theorem total_takeAt_le (order : TotalOrder cmp) {xs : List (Stored D)} (hwf : Tally.Wf cmp (Tally.widen xs))
    (e : Option (Stored D)) : Tally.total (Tally.widen (takeAt cmp xs e)) ≤ Tally.total (Tally.widen xs) := by
  cases e with
  | none => exact Int.le_refl _
  | some e =>
    rw [takeAt, Tally.widen_takeOne]
    exact Tally.total_takeOne_le order hwf e.data

theorem total_dropAt_le (order : TotalOrder cmp) {xs : List (Stored D)} (hwf : Tally.Wf cmp (Tally.widen xs))
    (e : Option (Stored D)) : Tally.total (Tally.widen (dropAt cmp xs e)) ≤ Tally.total (Tally.widen xs) := by
  cases e with
  | none => exact Int.le_refl _
  | some e =>
    rw [dropAt, Tally.widen_drop]
    exact Tally.total_drop_le order hwf e.data

/-- The references after a call that fits are a word again. -/
theorem CountsAll.total_lt (order : TotalOrder cmp) (h : CountsAll cmp (this, mem) t q) {op : Op D}
    (hkeep : op.KeepsNodes) (hfit : CountFits (this, mem) op) (ends : Ends D) :
    Tally.total (Tally.widen (tallyExec cmp ends t.vals op).1) < 2147483648 := by
  have hrefs := h.refsFit order hkeep hfit
  have htotal : Tally.total (Tally.widen t.vals) < 2147483648 := by
    rw [← h.refnum]
    exact (toInt_bounds _).2
  cases op with
  | insertData data =>
    have hroom : storedRefs this mem + 1 < 2147483648 := hfit
    have hadd := h.represents.widen_add order h.wf (e := ⟨data, 1⟩) (show (1 : Int) ≤ 1 by decide) hrefs
    rw [storedRefs, h.represents.storedEntries] at hroom
    rw [tallyExec, hadd, Tally.total_add]
    exact hroom
  | insertNode node e => exact absurd hkeep id
  | deleteValue data =>
    have hle : Tally.total (Tally.widen (Tally.takeOne cmp data t.vals)) ≤ Tally.total (Tally.widen t.vals) := by
      rw [Tally.widen_takeOne]
      exact Tally.total_takeOne_le order h.wf data
    exact Int.lt_of_le_of_lt hle htotal
  | popNode data =>
    have hle : Tally.total (Tally.widen (Tally.drop cmp data t.vals)) ≤ Tally.total (Tally.widen t.vals) := by
      rw [Tally.widen_drop]
      exact Tally.total_drop_le order h.wf data
    exact Int.lt_of_le_of_lt hle htotal
  | popTopNode => exact Int.lt_of_le_of_lt (total_dropAt_le order h.wf ends.top) htotal
  | popBottomNode => exact Int.lt_of_le_of_lt (total_dropAt_le order h.wf ends.bottom) htotal
  | popTopData => exact Int.lt_of_le_of_lt (total_takeAt_le order h.wf ends.top) htotal
  | popBottomData => exact Int.lt_of_le_of_lt (total_takeAt_le order h.wf ends.bottom) htotal
  | hasValue data => exact htotal
  | getTopData => exact htotal
  | getBottomData => exact htotal

theorem exec_countsAll (order : TotalOrder cmp) {s : Bintree D × Mem D} {op : Op D} (h : CountsAll cmp s t q)
    (hkeep : op.KeepsNodes) (hright : CountsRight cmp s op) (hfit : CountFits s op) :
    ∃ s' ret, exec cmp s op = some (s', ret) ∧ ∃ t q, CountsAll cmp s' t q := by
  obtain ⟨this, mem⟩ := s
  have hcall : Callable (this, mem) op := by
    cases op with
    | insertNode node e => exact absurd hkeep id
    | _ => trivial
  have hrefs := h.refsFit order hkeep hfit
  obtain ⟨this', mem', ret, t', q', hrun, hrep', hsharp', hvals, -, hchange⟩ :=
    exec_spec order h.represents hcall
  have hwf' : Tally.Wf cmp (Tally.widen t'.vals) := by
    rw [hvals]
    exact tallyExec_wf order h.represents h.wf _ hrefs
  have htotal := refnumChange_total order h hkeep hright hrefs
  have hlt := h.total_lt order hkeep hfit (cachedEnds this mem)
  rw [← hvals] at htotal hlt
  have hnonneg := hwf'.total_nonneg
  have hsize : t'.size ≤ 4294967296 := by
    have hlen := hwf'.length_le_total
    rw [Tally.length_widen, Shape.length_vals] at hlen
    omega
  have href : (bintreeGetRefnum this).toInt = Tally.total (Tally.widen t.vals) := h.refnum
  refine ⟨(this', mem'), ret, hrun, t', q', hrep', hsharp' h.sharp hsize, hwf', ?_⟩
  change (bintreeGetRefnum this').toInt = _
  rw [htotal, ← href] at hnonneg hlt
  rw [hchange fun v hv => Tally.pos_of_wf h.wf hv, htotal, ← href]
  exact toInt_add_of_fits (Int.le_trans (by decide) hnonneg) hlt

/-- In every run without a miscounting removal whose references fit, both counters are
exact in every state reached. -/
theorem counters_exact (order : TotalOrder cmp) (mem : Mem D) (ops : List (Op D))
    (hops : Guarded (exec cmp) (fun s op => op.KeepsNodes ∧ CountsRight cmp s op ∧ CountFits s op)
      (makeBintree, mem) ops) :
    ∃ this' mem' rets, run (exec cmp) (makeBintree, mem) ops = some ((this', mem'), rets) ∧
      CountersExact this' mem' := by
  have hstep : ∀ (s : Bintree D × Mem D) (op : Op D), (∃ t q, CountsAll cmp s t q) →
      op.KeepsNodes ∧ CountsRight cmp s op ∧ CountFits s op →
      ∃ s' ret, exec cmp s op = some (s', ret) ∧ ∃ t q, CountsAll cmp s' t q := by
    intro s op hinv hop
    obtain ⟨t, q, h⟩ := hinv
    exact exec_countsAll order h hop.1 hop.2.1 hop.2.2
  have hmake : CountsAll cmp (makeBintree, mem) .nil [] :=
    ⟨represents_make mem, sharp_make, ⟨increasing_nil, nofun⟩, rfl⟩
  obtain ⟨⟨this', mem'⟩, rets, hrun, t, q, h⟩ := run_total hstep ⟨.nil, [], hmake⟩ hops
  exact ⟨this', mem', rets, hrun, h.exact⟩

/-- Deleting both single entries of a tree with a doubled one counts right: the
doubled key is the predecessor of none of them. -/
theorem counters_exact_run :
    ∃ this' mem' rets, run (exec bintreecmpInt32) (makeBintree, ⟨[]⟩)
        [.insertData 2, .insertData 1, .insertData 3, .insertData 3, .deleteValue 2, .popNode 3] =
          some ((this', mem'), rets) ∧ CountersExact this' mem' :=
  counters_exact bintreecmpInt32_order _ _ (by decide +kernel)

/-- The tree behind the root is unique, so one wrong sum refutes the counters. -/
theorem not_countersExact (hroot : this.root = t.ptr) (h : t.Holds nodeCell mem)
    (hne : (bintreeGetRefnum this).toInt ≠ Tally.total (Tally.widen t.vals)) : ¬ CountersExact this mem := by
  intro hexact
  obtain ⟨t', hroot', h', -, -, href⟩ := hexact
  obtain rfl := h.unique nodeCell_inj h' (hroot.symm.trans hroot')
  exact hne href

/-- Node 2 has two children and its predecessor, node 1, is held twice. After the
deletion of 2 three references are stored and two are counted. -/
theorem delete_miscounts :
    ∃ s rets, run (exec bintreecmpInt32) (makeBintree, ⟨[]⟩)
        [.insertData 2, .insertData 1, .insertData 3, .insertData 1, .deleteValue 2] = some (s, rets) ∧
      ¬ CountersExact s.1 s.2 := by
  refine ⟨_, _, rfl, ?_⟩
  refine not_countersExact (t := .node 0 ⟨1, 2⟩ .nil (.node 2 ⟨3, 1⟩ .nil .nil)) rfl ?_ ?_
  · exact ⟨rfl, trivial, rfl, trivial, trivial⟩
  · decide +kernel

end Devclego.Tree

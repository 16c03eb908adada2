import Devclego.Tree.Operations

/-!
# Calls on one tree

A call is a function of `lib_bintree.h` with its arguments. The result of a pop
carries the contents of the popped node as the caller finds them at the return.
`tallyExec` is what the calls mean for a tally whose multiplicities are words, and
`exec_spec` is the one step of every simulation below. The functions that start at a
cache act on whatever entry it leads to; where the caches are the ends of the tree,
that is the last or the first one.
-/
namespace Devclego.Tree

open Foundation Puffers

variable {D : Type}

/-- `insertNode` names a node and what its holder knows it to store. -/
inductive Op (D : Type) where
  | insertData (data : D)
  | insertNode (node : Addr) (e : Stored D)
  | deleteValue (data : D)
  | popNode (data : D)
  | popTopNode
  | popBottomNode
  | popTopData
  | popBottomData
  | hasValue (data : D)
  | getTopData
  | getBottomData
deriving DecidableEq, Repr

inductive Ret (D : Type) where
  | unit
  | node (node : Ptr) (contents : Option (Bintreenode D))
  | data (data : Option D)
  | flag (flag : Bool)
  | count (count : Int32)
deriving DecidableEq, Repr

def handOut : Bintree D × Mem D × Ptr → (Bintree D × Mem D) × Ret D
  | (this, mem, node) => ((this, mem), .node node (mem.load node))

def exec (cmp : D → D → Int) : Bintree D × Mem D → Op D → Option ((Bintree D × Mem D) × Ret D)
  | (this, mem), .insertData data => (bintreeInsertData cmp this mem data).map (·, .unit)
  | (this, mem), .insertNode node _ => (bintreeInsertNode cmp this mem node).map (·, .unit)
  | (this, mem), .deleteValue data => (bintreeDeleteValue cmp this mem data).map (·, .unit)
  | (this, mem), .popNode data => (bintreePopNode cmp this mem data).map handOut
  | (this, mem), .popTopNode => (bintreePopTopNode cmp this mem).map handOut
  | (this, mem), .popBottomNode => (bintreePopBottomNode cmp this mem).map handOut
  | (this, mem), .popTopData =>
    (bintreePopTopData cmp this mem).map fun (this, mem, data) => ((this, mem), .data data)
  | (this, mem), .popBottomData =>
    (bintreePopBottomData cmp this mem).map fun (this, mem, data) => ((this, mem), .data data)
  | (this, mem), .hasValue data => (bintreeHasValue cmp this mem data).map (((this, mem), .flag ·))
  | (this, mem), .getTopData => (bintreeGetTopData this mem).map (((this, mem), .data ·))
  | (this, mem), .getBottomData => (bintreeGetBottomData this mem).map (((this, mem), .data ·))

/-- The other functions of the header: the counters, nodes made and discarded for
the caller, and the reset. -/
inductive Call (D : Type) where
  | op (o : Op D)
  | getNodenum
  | getRefnum
  | makeNode (data : D)
  | trashNode (node : Addr)
  | reset
deriving DecidableEq, Repr

def execCall (cmp : D → D → Int) : Bintree D × Mem D → Call D → Option ((Bintree D × Mem D) × Ret D)
  | s, .op o => exec cmp s o
  | (this, mem), .getNodenum => some ((this, mem), .count (bintreeGetNodenum this))
  | (this, mem), .getRefnum => some ((this, mem), .count (bintreeGetRefnum this))
  | (this, mem), .makeNode data =>
    (makeBintreenode this mem data).map fun (this, mem, node) => handOut (this, mem, some node)
  | (this, mem), .trashNode node => (bintreeTrashNode this mem node).map (·, .unit)
  | (this, mem), .reset => (bintreeReset this mem).map (·, .unit)

/-! ## What the caller must respect -/

/-- Reachability over child pointers. -/
inductive Reaches (mem : Mem D) : Ptr → Addr → Prop where
  | here (a : Addr) : Reaches mem (some a) a
  | left {a b : Addr} {n : Bintreenode D} (h : mem.read a = some n) (hl : Reaches mem n.left b) :
      Reaches mem (some a) b
  | right {a b : Addr} {n : Bintreenode D} (h : mem.read a = some n) (hr : Reaches mem n.right b) :
      Reaches mem (some a) b

/-- A node in the caller's hands: live, without children, and neither linked into
this tree nor waiting in its recycle puffer. -/
structure Spare (this : Bintree D) (mem : Mem D) (node : Addr) (e : Stored D) : Prop where
  stored : mem.read node = some (nodeCell e none none)
  unlinked : ¬ Reaches mem this.root node
  unpooled : some node ∉ this.recycle.items

/-- The only obligation of a call is about the node it gives away. -/
def Callable : Bintree D × Mem D → Op D → Prop
  | (this, mem), .insertNode node e => Spare this mem node e
  | _, _ => True

def CallAllowed : Bintree D × Mem D → Call D → Prop
  | s, .op o => Callable s o
  | (this, mem), .trashNode node => ∃ e, Spare this mem node e
  | _, _ => True

variable {cmp : D → D → Int} {this : Bintree D} {mem : Mem D} {t : Shape (Stored D)} {q : List Addr}

theorem reaches_of_mem (h : t.Holds nodeCell mem) {a : Addr} (ha : a ∈ t.addrs) :
    Reaches mem t.ptr a := by
  induction t with
  | nil => simp at ha
  | node b v l r ihl ihr =>
    obtain ⟨hb, hl, hr⟩ := h
    rw [Shape.addrs_node, List.mem_append, List.mem_cons] at ha
    rcases ha with ha | rfl | ha
    · exact .left hb (ihl hl ha)
    · exact .here a
    · exact .right hb (ihr hr ha)

theorem mem_of_reaches (h : t.Holds nodeCell mem) {a : Addr} (ha : Reaches mem t.ptr a) :
    a ∈ t.addrs := by
  induction t with
  | nil => cases ha
  | node b v l r ihl ihr =>
    obtain ⟨hb, hl, hr⟩ := h
    rw [Shape.addrs_node, List.mem_append, List.mem_cons]
    cases ha with
    | here => exact Or.inr (Or.inl rfl)
    | left hn hs =>
      rw [hb] at hn
      cases hn
      exact Or.inl (ihl hl hs)
    | right hn hs =>
      rw [hb] at hn
      cases hn
      exact Or.inr (Or.inr (ihr hr hs))

theorem Represents.reaches_iff (h : Represents cmp this mem t q) (a : Addr) :
    Reaches mem this.root a ↔ a ∈ t.addrs := by
  rw [h.root]
  exact ⟨mem_of_reaches h.holds, reaches_of_mem h.holds⟩

/-- A queued item is found in the slots. -/
theorem mem_items {puffer : Datapuffer Addr} {len : Nat} (h : puffer.Holds len q) {a : Addr}
    (ha : a ∈ q) : some a ∈ puffer.items := by
  obtain ⟨i, hi, rfl⟩ := List.mem_iff_getElem.mp ha
  have hfit := h.fits
  have hs := h.slots i (by rw [h.items_length]; omega)
  rw [List.getElem?_eq_getElem hi] at hs
  exact List.mem_of_getElem? hs

theorem Represents.spare (h : Represents cmp this mem t q) {node : Addr} {e : Stored D}
    (hs : Spare this mem node e) : node ∉ t.addrs ++ q := by
  intro hm
  rcases List.mem_append.mp hm with ht | hq
  · exact hs.unlinked ((h.reaches_iff node).mpr ht)
  · exact hs.unpooled (mem_items h.recycle hq)

/-! ## What a call means -/

/-- An answer, with the multiplicity of an entry as a number. -/
inductive Answer (D : Type) where
  | unit
  | entry (e : Option (Entry D))
  | data (data : Option D)
  | flag (flag : Bool)

/-- A result shows an answer: a popped node is childless and stores the entry,
and null stands for no entry. -/
inductive Shows : Ret D → Answer D → Prop where
  | unit : Shows .unit .unit
  | null : Shows (.node none none) (.entry none)
  | node (a : Addr) (e : Stored D) : Shows (.node (some a) (some (nodeCell e none none))) (.entry (some e.widen))
  | data (d : Option D) : Shows (.data d) (.data d)
  | flag (b : Bool) : Shows (.flag b) (.flag b)

def dropAt (cmp : D → D → Int) (xs : List (Stored D)) : Option (Stored D) → List (Stored D)
  | none => xs
  | some e => Tally.drop cmp e.data xs

def takeAt (cmp : D → D → Int) (xs : List (Stored D)) : Option (Stored D) → List (Stored D)
  | none => xs
  | some e => Tally.takeOne cmp e.data xs

/-- The entries the two caches lead to. -/
structure Ends (D : Type) where
  top : Option (Stored D)
  bottom : Option (Stored D)

def cachedEnds (this : Bintree D) (mem : Mem D) : Ends D :=
  ⟨cachedEntry mem this.top, cachedEntry mem this.bottom⟩

def tallyExec (cmp : D → D → Int) (ends : Ends D) (xs : List (Stored D)) : Op D → List (Stored D) × Answer D
  | .insertData data => (Tally.add cmp ⟨data, 1⟩ xs, .unit)
  | .insertNode _ e => (Tally.add cmp e xs, .unit)
  | .deleteValue data => (Tally.takeOne cmp data xs, .unit)
  | .popNode data => (Tally.drop cmp data xs, .entry ((Tally.find cmp xs data).map Entry.widen))
  | .popTopNode => (dropAt cmp xs ends.top, .entry (ends.top.map Entry.widen))
  | .popBottomNode => (dropAt cmp xs ends.bottom, .entry (ends.bottom.map Entry.widen))
  | .popTopData => (takeAt cmp xs ends.top, .data (ends.top.map Entry.data))
  | .popBottomData => (takeAt cmp xs ends.bottom, .data (ends.bottom.map Entry.data))
  | .hasValue data => (xs, .flag (Tally.find cmp xs data).isSome)
  | .getTopData => (xs, .data (ends.top.map Entry.data))
  | .getBottomData => (xs, .data (ends.bottom.map Entry.data))

/-- The change of the reference count as the code makes it. -/
def refnumChange (cmp : D → D → Int) : Bintree D × Mem D → Op D → Int32
  | _, .insertData _ => 1
  | _, .insertNode _ _ => 1
  | (this, mem), .deleteValue data => - deletedRefs cmp this mem data
  | (this, mem), .popNode data => - poppedRefs cmp this mem data
  | (this, mem), .popTopNode =>
    - ((cachedEnds this mem).top.map fun e => poppedRefs cmp this mem e.data).getD 0
  | (this, mem), .popBottomNode =>
    - ((cachedEnds this mem).bottom.map fun e => poppedRefs cmp this mem e.data).getD 0
  | (this, mem), .popTopData =>
    - ((cachedEnds this mem).top.map fun e => deletedRefs cmp this mem e.data).getD 0
  | (this, mem), .popBottomData =>
    - ((cachedEnds this mem).bottom.map fun e => deletedRefs cmp this mem e.data).getD 0
  | _, _ => 0

theorem Handed.represents {this' : Bintree D} {mem' : Mem D} {t' : Shape (Stored D)} {p : Ptr}
    {e : Option (Stored D)} (h : Represents cmp this mem t q)
    (hh : Handed cmp mem t q this this' mem' t' p e) : Represents cmp this' mem' t' q := by
  cases hh with
  | absent => exact h
  | popped _ _ _ b e hp => exact hp.represents

theorem Handed.sharp {this' : Bintree D} {mem' : Mem D} {t' : Shape (Stored D)} {p : Ptr}
    {e : Option (Stored D)} (hh : Handed cmp mem t q this this' mem' t' p e) (hs : Sharp this t) :
    Sharp this' t' := by
  cases hh with
  | absent => exact hs
  | popped _ _ _ b e hp => exact hp.sharp hs

theorem Handed.shows {this' : Bintree D} {mem' : Mem D} {t' : Shape (Stored D)} {p : Ptr}
    {e : Option (Stored D)} (hh : Handed cmp mem t q this this' mem' t' p e) :
    Shows (.node p (mem'.load p)) (.entry (e.map Entry.widen)) := by
  cases hh with
  | absent => exact .null
  | popped _ _ _ b e hp =>
    rw [Memory.load_some, hp.node]
    exact .node b e

/-- Popping at the entry of a cache. -/
theorem popAt_spec (order : TotalOrder cmp) (h : Represents cmp this mem t q)
    {e : Option (Stored D)} (he : ∀ v, e = some v → v ∈ t.vals) :
    ∃ this' mem' t' p, popAt cmp this mem e = some (this', mem', p) ∧ Represents cmp this' mem' t' q ∧
      (Sharp this t → Sharp this' t') ∧
      t'.vals = dropAt cmp t.vals e ∧ Shows (.node p (mem'.load p)) (.entry (e.map Entry.widen)) ∧
      bintreeGetRefnum this' =
        bintreeGetRefnum this - (e.map fun e => poppedRefs cmp this mem e.data).getD 0 := by
  cases e with
  | none => exact ⟨this, mem, t, none, rfl, h, id, rfl, .null, by simp⟩
  | some e =>
    obtain ⟨this', mem', t', p, hpop, hh, hvals, href⟩ := h.popNode order e.data
    rw [Tally.find_of_mem order h.sorted (he e rfl)] at hh
    exact ⟨this', mem', t', p, hpop, hh.represents h, hh.sharp, hvals, hh.shows, href⟩

theorem deleteAt_spec (order : TotalOrder cmp) (h : Represents cmp this mem t q)
    (e : Option (Stored D)) :
    ∃ this' mem' t' q', deleteAt cmp this mem e = some (this', mem', e.map Entry.data) ∧
      Represents cmp this' mem' t' q' ∧ (Sharp this t → Sharp this' t') ∧
      t'.vals = takeAt cmp t.vals e ∧
      mem'.outside (t'.addrs ++ q') = mem.outside (t.addrs ++ q) ∧
      ((∀ v ∈ t.vals, 0 < v.ref) → bintreeGetRefnum this' =
        bintreeGetRefnum this - (e.map fun e => deletedRefs cmp this mem e.data).getD 0) := by
  cases e with
  | none => exact ⟨this, mem, t, q, rfl, h, id, rfl, rfl, by simp⟩
  | some e =>
    obtain ⟨this', mem', t', q', hdel, hrep, hsharp, hvals, hout, href⟩ := h.deleteValue order e.data
    exact ⟨this', mem', t', q', by simp [deleteAt, hdel], hrep, hsharp, hvals, hout, href⟩

/-- One call: it returns, the tree represents what the tally operation leaves,
and the result shows its answer. Caches that are the ends stay the ends until the node
counter comes round, and the reference count follows `refnumChange` as long as every
node holds a reference. -/
theorem exec_spec (order : TotalOrder cmp) (h : Represents cmp this mem t q) {op : Op D}
    (hop : Callable (this, mem) op) :
    ∃ this' mem' ret t' q', exec cmp (this, mem) op = some ((this', mem'), ret) ∧
      Represents cmp this' mem' t' q' ∧ (Sharp this t → t'.size ≤ 4294967296 → Sharp this' t') ∧
      t'.vals = (tallyExec cmp (cachedEnds this mem) t.vals op).1 ∧
      Shows ret (tallyExec cmp (cachedEnds this mem) t.vals op).2 ∧
      ((∀ v ∈ t.vals, 0 < v.ref) →
        bintreeGetRefnum this' = bintreeGetRefnum this + refnumChange cmp (this, mem) op) := by
  cases op with
  | insertData data =>
    obtain ⟨this', mem', t', q', hrun, hrep, hsharp, hvals, -, href⟩ := h.insertData order data
    exact ⟨this', mem', _, t', q', by simp [exec, hrun], hrep, hsharp, hvals, .unit, fun _ => href⟩
  | insertNode node e =>
    obtain ⟨this', mem', t', q', hrun, hrep, hsharp, hvals, -, href⟩ :=
      h.insertNode order hop.stored (h.spare hop)
    exact ⟨this', mem', _, t', q', by simp [exec, hrun], hrep, hsharp, hvals, .unit, fun _ => href⟩
  | deleteValue data =>
    obtain ⟨this', mem', t', q', hrun, hrep, hsharp, hvals, -, href⟩ := h.deleteValue order data
    refine ⟨this', mem', _, t', q', by simp [exec, hrun], hrep, fun hs _ => hsharp hs, hvals, .unit, fun hpos => ?_⟩
    rw [href hpos, Int32.sub_eq_add_neg]
    rfl
  | popNode data =>
    obtain ⟨this', mem', t', p, hrun, hh, hvals, href⟩ := h.popNode order data
    refine ⟨this', mem', _, t', q, by simp [exec, hrun, handOut], hh.represents h, fun hs _ => hh.sharp hs, hvals,
      hh.shows, fun _ => ?_⟩
    rw [href, Int32.sub_eq_add_neg]
    rfl
  | popTopNode =>
    obtain ⟨this', mem', t', p, hrun, hrep, hsharp, hvals, hshow, href⟩ :=
      popAt_spec order h (fun _ he => h.cachedEntry_mem h.top he)
    refine ⟨this', mem', _, t', q, by simp [exec, h.popTopNode, hrun, handOut], hrep, fun hs _ => hsharp hs, hvals,
      hshow, fun _ => ?_⟩
    rw [href, Int32.sub_eq_add_neg]
    rfl
  | popBottomNode =>
    obtain ⟨this', mem', t', p, hrun, hrep, hsharp, hvals, hshow, href⟩ :=
      popAt_spec order h (fun _ he => h.cachedEntry_mem h.bottom he)
    refine ⟨this', mem', _, t', q, by simp [exec, h.popBottomNode, hrun, handOut], hrep, fun hs _ => hsharp hs,
      hvals, hshow, fun _ => ?_⟩
    rw [href, Int32.sub_eq_add_neg]
    rfl
  | popTopData =>
    obtain ⟨this', mem', t', q', hrun, hrep, hsharp, hvals, -, href⟩ :=
      deleteAt_spec order h (cachedEntry mem this.top)
    refine ⟨this', mem', _, t', q', by simp [exec, h.popTopData, hrun, cachedEnds], hrep, fun hs _ => hsharp hs, hvals, .data _,
      fun hpos => ?_⟩
    rw [href hpos, Int32.sub_eq_add_neg]
    rfl
  | popBottomData =>
    obtain ⟨this', mem', t', q', hrun, hrep, hsharp, hvals, -, href⟩ :=
      deleteAt_spec order h (cachedEntry mem this.bottom)
    refine ⟨this', mem', _, t', q', by simp [exec, h.popBottomData, hrun, cachedEnds], hrep, fun hs _ => hsharp hs, hvals,
      .data _, fun hpos => ?_⟩
    rw [href hpos, Int32.sub_eq_add_neg]
    rfl
  | hasValue data =>
    refine ⟨this, mem, .flag (Tally.find cmp t.vals data).isSome, t, q, by simp [exec, h.hasValue order data], h,
      fun hs _ => hs, rfl, .flag _, fun _ => ?_⟩
    exact (Int32.add_zero _).symm
  | getTopData =>
    refine ⟨this, mem, _, t, q, by simp [exec, h.getTopData, cachedEnds], h, fun hs _ => hs, rfl, .data _, fun _ => ?_⟩
    exact (Int32.add_zero _).symm
  | getBottomData =>
    refine ⟨this, mem, _, t, q, by simp [exec, h.getBottomData, cachedEnds], h, fun hs _ => hs, rfl, .data _, fun _ => ?_⟩
    exact (Int32.add_zero _).symm

end Devclego.Tree

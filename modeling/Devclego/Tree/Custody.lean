import Devclego.Foundation.Exclusive
import Devclego.Foundation.Paths
import Devclego.Tree.FiniteMap

/-!
# Who owns a node

The cells of the memory are the nodes that were allocated and not freed. Each of
them is linked into the tree, waits in the recycle puffer or is in the caller's
hands. `held` records the last: a pop adds the node it returns, and a node that is
reinserted or discarded leaves it. The only duty of the caller is to give away
nothing but what it holds.
-/
namespace Devclego.Tree

open Foundation Puffers

variable {D : Type}

/-- A tree, the memory of its nodes and the nodes its caller holds. -/
structure Custody (D : Type) where
  tree : Bintree D
  mem : Mem D
  held : List Addr
deriving DecidableEq, Repr

def makeCustody : Custody D := ⟨makeBintree, ⟨[]⟩, []⟩

/-- What the caller holds after a call. -/
def heldAfter (held : List Addr) : Call D → Ret D → List Addr
  | .op (.insertNode node _), _ => held.erase node
  | .trashNode node, _ => held.erase node
  | _, .node node _ => node.toList ++ held
  | _, _ => held

def custodyStep (cmp : D → D → Int) (s : Custody D) (c : Call D) : Option (Custody D × Ret D) := do
  let ((tree, mem), ret) ← execCall cmp (s.tree, s.mem) c
  some (⟨tree, mem, heldAfter s.held c ret⟩, ret)

/-- The caller gives away only what it holds, and never resets the tree. -/
def GivesHeld (s : Custody D) : Call D → Prop
  | .op (.insertNode node _) => node ∈ s.held
  | .trashNode node => node ∈ s.held
  | .reset => False
  | _ => True

instance (s : Custody D) : ∀ c : Call D, Decidable (GivesHeld s c)
  | .op (.insertNode node _) => inferInstanceAs (Decidable (node ∈ s.held))
  | .trashNode node => inferInstanceAs (Decidable (node ∈ s.held))
  | .reset => inferInstanceAs (Decidable False)
  | .op (.insertData _) | .op (.deleteValue _) | .op (.popNode _) | .op .popTopNode | .op .popBottomNode
  | .op .popTopData | .op .popBottomData | .op (.hasValue _) | .op .getTopData | .op .getBottomData
  | .getNodenum | .getRefnum | .makeNode _ => inferInstanceAs (Decidable True)

/-! ## The three places -/

inductive Place where
  | tree
  | puffer
  | caller
deriving DecidableEq, Repr

def Bintreenode.child (n : Bintreenode D) : Turn → Ptr
  | .left => n.left
  | .right => n.right

/-- The path leads from the root to the node. -/
def Custody.LeadsTo (s : Custody D) (node : Addr) (path : List Turn) : Prop :=
  follow Bintreenode.child s.mem s.tree.root path = some node

def Custody.At (s : Custody D) : Place → Addr → Prop
  | .tree, node => ∃ path, s.LeadsTo node path
  | .puffer, node => node ∈ s.tree.recycle.contents
  | .caller, node => node ∈ s.held

def Custody.OnceAt (s : Custody D) : Place → Addr → Prop
  | .tree, node => ∃! path, s.LeadsTo node path
  | .puffer, node => s.tree.recycle.contents.count node = 1
  | .caller, node => s.held.count node = 1

/-- Every live node has one owner and every owned node is live. -/
structure OneOwner (s : Custody D) : Prop where
  owned : ∀ node, (s.mem.read node).isSome → ∃ place, s.OnceAt place node ∧ ∀ other, s.At other node → other = place
  live : ∀ place node, s.At place node → (s.mem.read node).isSome
  capacity : s.tree.recycle.count ≤ s.tree.recycle.absLength

/-- The nodes of the tree, of the puffer and of the caller are apart and are all
there is. What the caller holds can be inserted. -/
structure Keeps (cmp : D → D → Int) (s : Custody D) (t : Shape (Stored D)) (q : List Addr) : Prop where
  represents : Represents cmp s.tree s.mem t q
  spare : ∀ a ∈ s.held, ∃ e, s.mem.read a = some (nodeCell e none none)
  nodup : s.held.Nodup
  apart : (t.addrs ++ q).Disjoint s.held
  complete : ∀ a, (s.mem.read a).isSome → a ∈ t.addrs ++ q ∨ a ∈ s.held

variable {cmp : D → D → Int} {s : Custody D} {this' : Bintree D} {mem' : Mem D} {t t' : Shape (Stored D)}
  {q q' : List Addr}

theorem keeps_make : Keeps cmp makeCustody .nil [] where
  represents := represents_make _
  spare := nofun
  nodup := List.nodup_nil
  apart := nofun
  complete a ha := by simp [makeCustody, Memory.read] at ha

theorem Keeps.leadsTo_iff (h : Keeps cmp s t q) (node : Addr) (path : List Turn) :
    s.LeadsTo node path ↔ t.place path = some node := by
  rw [Custody.LeadsTo, h.represents.root,
    h.represents.holds.follow_eq (fun _ _ _ => rfl) (fun _ _ _ => rfl) path]

/-- The nodes at each place, by the lists of the invariant. -/
def nodesAt (t : Shape (Stored D)) (q held : List Addr) : Place → List Addr
  | .tree => t.addrs
  | .puffer => q
  | .caller => held

theorem Keeps.at_iff (h : Keeps cmp s t q) (place : Place) (node : Addr) :
    s.At place node ↔ node ∈ nodesAt t q s.held place := by
  cases place with
  | tree =>
    constructor
    · intro hat
      obtain ⟨path, hp⟩ := hat
      exact Shape.mem_of_place ((h.leadsTo_iff node path).mp hp)
    · intro hm
      obtain ⟨path, hp⟩ := Shape.exists_place hm
      exact ⟨path, (h.leadsTo_iff node path).mpr hp⟩
  | puffer =>
    rw [Custody.At, h.represents.recycle.contents_eq]
    exact Iff.rfl
  | caller => exact Iff.rfl

theorem Keeps.exclusive (h : Keeps cmp s t q) : Exclusive (nodesAt t q s.held) where
  nodup place := by
    obtain ⟨htree, hpuffer, -⟩ := List.nodup_append.mp h.represents.distinct
    cases place with
    | tree => exact htree
    | puffer => exact hpuffer
    | caller => exact h.nodup
  apart place other node hm hm' := by
    have htq := h.represents.apart
    have hth : t.addrs.Disjoint s.held := fun a ha hb => h.apart (List.mem_append_left q ha) hb
    have hqh : q.Disjoint s.held := fun a ha hb => h.apart (List.mem_append_right t.addrs ha) hb
    cases place with
    | tree =>
      cases other with
      | tree => rfl
      | puffer => exact (htq hm hm').elim
      | caller => exact (hth hm hm').elim
    | puffer =>
      cases other with
      | tree => exact (htq hm' hm).elim
      | puffer => rfl
      | caller => exact (hqh hm hm').elim
    | caller =>
      cases other with
      | tree => exact (hth hm' hm).elim
      | puffer => exact (hqh hm' hm).elim
      | caller => rfl

theorem Keeps.onceAt (h : Keeps cmp s t q) {place : Place} {node : Addr} (hat : s.At place node) :
    s.OnceAt place node := by
  have hmem := (h.at_iff place node).mp hat
  have hnodup := h.exclusive.nodup place
  cases place with
  | tree =>
    simp only [Custody.OnceAt, h.leadsTo_iff]
    exact Shape.existsUnique_place hnodup hmem
  | puffer =>
    rw [Custody.OnceAt, h.represents.recycle.contents_eq]
    exact List.count_eq_one_of_mem hnodup hmem
  | caller => exact List.count_eq_one_of_mem hnodup hmem

theorem Keeps.oneOwner (h : Keeps cmp s t q) : OneOwner s where
  owned node hlive := by
    have hat : ∃ place, s.At place node := by
      rcases h.complete node hlive with hown | hheld
      · rcases List.mem_append.mp hown with ht | hq
        · exact ⟨.tree, (h.at_iff .tree node).mpr ht⟩
        · exact ⟨.puffer, (h.at_iff .puffer node).mpr hq⟩
      · exact ⟨.caller, hheld⟩
    obtain ⟨place, hat⟩ := hat
    refine ⟨place, h.onceAt hat, fun other hother => ?_⟩
    exact h.exclusive.apart other place node ((h.at_iff other node).mp hother) ((h.at_iff place node).mp hat)
  live place node hat := by
    have hmem := (h.at_iff place node).mp hat
    cases place with
    | tree => exact h.represents.live node (List.mem_append_left q hmem)
    | puffer => exact h.represents.live node (List.mem_append_right t.addrs hmem)
    | caller =>
      obtain ⟨e, he⟩ := h.spare node hmem
      simp [he]
  capacity := by
    have hfits := h.represents.recycle.fits
    rw [h.represents.recycle.count_eq, h.represents.recycle.absLength_eq]
    omega

/-! ## One call -/

/-- Ownership moves with the nodes a call is given and the nodes it hands out. The
nodes the caller keeps are out of its reach. -/
theorem Keeps.move (given taken : List Addr) {rest : List Addr} (h : Keeps cmp s t q)
    (hrep : Represents cmp this' mem' t' q')
    (hout : mem'.outside (taken ++ (t'.addrs ++ q')) = s.mem.outside (given ++ (t.addrs ++ q)))
    (hheld : s.held.Perm (given ++ rest))
    (htaken : ∀ a ∈ taken, ∃ e, mem'.read a = some (nodeCell e none none))
    (hnodup : taken.Nodup) (hfresh : (t'.addrs ++ q').Disjoint taken) :
    Keeps cmp ⟨this', mem', taken ++ rest⟩ t' q' := by
  have hdist := List.nodup_append.mp (hheld.nodup_iff.mp h.nodup)
  have hrest : ∀ a ∈ rest, a ∈ s.held := fun a ha => hheld.mem_iff.mpr (List.mem_append_right given ha)
  have hapart : (given ++ (t.addrs ++ q)).Disjoint rest := by
    intro a ha hr
    rcases List.mem_append.mp ha with hg | hown
    · exact hdist.2.2 a hg a hr rfl
    · exact h.apart hown (hrest a hr)
  have hlive : ∀ a ∈ rest, (s.mem.read a).isSome := by
    intro a ha
    obtain ⟨e, he⟩ := h.spare a (hrest a ha)
    simp [he]
  obtain ⟨hapart', hsame⟩ := Memory.frame_disjoint hout hapart hlive
  constructor
  · exact hrep
  · intro a ha
    rcases List.mem_append.mp ha with ht | hr
    · exact htaken a ht
    · obtain ⟨e, he⟩ := h.spare a (hrest a hr)
      exact ⟨e, (hsame a hr).trans he⟩
  · refine List.nodup_append.mpr ⟨hnodup, hdist.2.1, fun a ha b hb he => ?_⟩
    subst he
    exact hapart' (List.mem_append_left _ ha) hb
  · intro a ha hb
    rcases List.mem_append.mp hb with ht | hr
    · exact hfresh ha ht
    · exact hapart' (List.mem_append_right taken ha) hr
  · intro a ha
    by_cases hown : a ∈ taken ++ (t'.addrs ++ q')
    · rcases List.mem_append.mp hown with ht | hown
      · exact Or.inr (List.mem_append_left rest ht)
      · exact Or.inl hown
    · -- a cell that nobody gave to the call was somebody's before it
      have hview := congrFun hout a
      rw [Memory.outside, if_neg hown, Memory.outside] at hview
      split at hview
      · rw [hview] at ha
        cases ha
      · rename_i hold
        rw [List.mem_append, not_or] at hold
        rw [hview] at ha
        have hin := (h.complete a ha).resolve_left hold.2
        rcases List.mem_append.mp (hheld.mem_iff.mp hin) with hg | hr
        · exact absurd hg hold.1
        · exact Or.inr (List.mem_append_right taken hr)

/-- A call that is given nothing and hands out nothing. -/
theorem Keeps.internal (h : Keeps cmp s t q) (hrep : Represents cmp this' mem' t' q')
    (hout : mem'.outside (t'.addrs ++ q') = s.mem.outside (t.addrs ++ q)) :
    Keeps cmp ⟨this', mem', s.held⟩ t' q' :=
  h.move [] [] hrep hout (List.Perm.refl _) nofun List.nodup_nil nofun

theorem Keeps.give {node : Addr} (h : Keeps cmp s t q) (hnode : node ∈ s.held)
    (hrep : Represents cmp this' mem' t' q')
    (hout : mem'.outside (t'.addrs ++ q') = s.mem.outside (node :: (t.addrs ++ q))) :
    Keeps cmp ⟨this', mem', s.held.erase node⟩ t' q' :=
  h.move [node] [] hrep hout (List.perm_cons_erase hnode) nofun List.nodup_nil nofun

theorem Keeps.take {node : Addr} {e : Stored D} (h : Keeps cmp s t q) (hrep : Represents cmp this' mem' t' q')
    (hnode : mem'.read node = some (nodeCell e none none)) (hfresh : node ∉ t'.addrs ++ q')
    (hout : mem'.outside (node :: (t'.addrs ++ q')) = s.mem.outside (t.addrs ++ q)) :
    Keeps cmp ⟨this', mem', node :: s.held⟩ t' q' := by
  refine h.move [] [node] hrep hout (List.Perm.refl _) ?_ (List.nodup_singleton node) ?_
  · intro a ha
    rw [List.mem_singleton.mp ha]
    exact ⟨e, hnode⟩
  · intro a ha hb
    exact hfresh (List.mem_singleton.mp hb ▸ ha)

theorem Keeps.popNode (order : TotalOrder cmp) (h : Keeps cmp s t q) (data : D) :
    ∃ this' mem' t' p, bintreePopNode cmp s.tree s.mem data = some (this', mem', p) ∧
      Keeps cmp ⟨this', mem', p.toList ++ s.held⟩ t' q := by
  obtain ⟨this', mem', t', p, hpop, hhanded, -⟩ := h.represents.popNode order data
  refine ⟨this', mem', t', p, hpop, ?_⟩
  cases hfind : Tally.find cmp t.vals data with
  | none =>
    rw [hfind] at hhanded
    cases hhanded
    exact h
  | some e =>
    rw [hfind] at hhanded
    cases hhanded with
    | popped _ _ _ b _ hp => exact h.take hp.represents hp.node hp.fresh hp.outside

theorem Keeps.popAt (order : TotalOrder cmp) (h : Keeps cmp s t q) (e : Option (Stored D)) :
    ∃ this' mem' t' p, Tree.popAt cmp s.tree s.mem e = some (this', mem', p) ∧
      Keeps cmp ⟨this', mem', p.toList ++ s.held⟩ t' q := by
  cases e with
  | none => exact ⟨s.tree, s.mem, t, none, rfl, h⟩
  | some e => exact h.popNode order e.data

theorem Keeps.deleteAt (order : TotalOrder cmp) (h : Keeps cmp s t q) (e : Option (Stored D)) :
    ∃ this' mem' t' q', Tree.deleteAt cmp s.tree s.mem e = some (this', mem', e.map Entry.data) ∧
      Keeps cmp ⟨this', mem', s.held⟩ t' q' := by
  obtain ⟨this', mem', t', q', hrun, hrep, -, -, hout, -⟩ := deleteAt_spec order h.represents e
  exact ⟨this', mem', t', q', hrun, h.internal hrep hout⟩

theorem Keeps.insertNode (order : TotalOrder cmp) (h : Keeps cmp s t q) {node : Addr} (hnode : node ∈ s.held) :
    ∃ this' mem' t' q', bintreeInsertNode cmp s.tree s.mem node = some (this', mem') ∧
      Keeps cmp ⟨this', mem', s.held.erase node⟩ t' q' := by
  obtain ⟨e, hread⟩ := h.spare node hnode
  have hfresh : node ∉ t.addrs ++ q := fun hm => h.apart hm hnode
  obtain ⟨this', mem', t', q', hrun, hrep, -, -, hout, -⟩ := h.represents.insertNode order hread hfresh
  exact ⟨this', mem', t', q', hrun, h.give hnode hrep hout⟩

theorem Keeps.trashNode (h : Keeps cmp s t q) {node : Addr} (hnode : node ∈ s.held) :
    ∃ this' mem' q', bintreeTrashNode s.tree s.mem node = some (this', mem') ∧
      Keeps cmp ⟨this', mem', s.held.erase node⟩ t q' := by
  obtain ⟨e, hread⟩ := h.spare node hnode
  obtain ⟨this', mem', q', hrun, hrep, -, hout⟩ := h.represents.trashNode hread fun hm => h.apart hm hnode
  exact ⟨this', mem', q', hrun, h.give hnode hrep hout⟩

theorem Keeps.makeNode (h : Keeps cmp s t q) (data : D) :
    ∃ this' mem' node q', makeBintreenode s.tree s.mem data = some (this', mem', node) ∧
      Keeps cmp ⟨this', mem', node :: s.held⟩ t q' := by
  obtain ⟨this', mem', node, q', hmake, -, hrep, hread, hfresh, hout⟩ := h.represents.make data
  exact ⟨this', mem', node, q', hmake, h.take hrep hread hfresh hout⟩

/-- A call is judged by the state it leaves and the nodes it moves. -/
theorem custodyStep_of_exec {c : Call D} (ret : Ret D)
    (hrun : execCall cmp (s.tree, s.mem) c = some ((this', mem'), ret))
    (h : Keeps cmp ⟨this', mem', heldAfter s.held c ret⟩ t' q') :
    ∃ s' ret, custodyStep cmp s c = some (s', ret) ∧ ∃ t' q', Keeps cmp s' t' q' := by
  refine ⟨⟨this', mem', heldAfter s.held c ret⟩, ret, ?_, t', q', h⟩
  rw [custodyStep, hrun]
  rfl

/-- Every call returns and leaves each node with one owner. -/
theorem custodyStep_keeps (order : TotalOrder cmp) (h : Keeps cmp s t q) {c : Call D} (hc : GivesHeld s c) :
    ∃ s' ret, custodyStep cmp s c = some (s', ret) ∧ ∃ t' q', Keeps cmp s' t' q' := by
  cases c with
  | op o =>
    cases o with
    | insertData data =>
      obtain ⟨this', mem', t', q', hrun, hrep, -, -, hout, -⟩ := h.represents.insertData order data
      exact custodyStep_of_exec .unit (by rw [execCall, exec, hrun]; rfl) (h.internal hrep hout)
    | insertNode node e =>
      obtain ⟨this', mem', t', q', hrun, hkeeps⟩ := h.insertNode order hc
      exact custodyStep_of_exec .unit (by rw [execCall, exec, hrun]; rfl) hkeeps
    | deleteValue data =>
      obtain ⟨this', mem', t', q', hrun, hrep, -, -, hout, -⟩ := h.represents.deleteValue order data
      exact custodyStep_of_exec .unit (by rw [execCall, exec, hrun]; rfl) (h.internal hrep hout)
    | popNode data =>
      obtain ⟨this', mem', t', p, hrun, hkeeps⟩ := h.popNode order data
      exact custodyStep_of_exec (.node p (mem'.load p)) (by rw [execCall, exec, hrun]; rfl) hkeeps
    | popTopNode =>
      obtain ⟨this', mem', t', p, hrun, hkeeps⟩ := h.popAt order (cachedEntry s.mem s.tree.top)
      rw [← h.represents.popTopNode] at hrun
      exact custodyStep_of_exec (.node p (mem'.load p)) (by rw [execCall, exec, hrun]; rfl) hkeeps
    | popBottomNode =>
      obtain ⟨this', mem', t', p, hrun, hkeeps⟩ := h.popAt order (cachedEntry s.mem s.tree.bottom)
      rw [← h.represents.popBottomNode] at hrun
      exact custodyStep_of_exec (.node p (mem'.load p)) (by rw [execCall, exec, hrun]; rfl) hkeeps
    | popTopData =>
      obtain ⟨this', mem', t', q', hrun, hkeeps⟩ := h.deleteAt order (cachedEntry s.mem s.tree.top)
      rw [← h.represents.popTopData] at hrun
      exact custodyStep_of_exec (.data _) (by rw [execCall, exec, hrun]; rfl) hkeeps
    | popBottomData =>
      obtain ⟨this', mem', t', q', hrun, hkeeps⟩ := h.deleteAt order (cachedEntry s.mem s.tree.bottom)
      rw [← h.represents.popBottomData] at hrun
      exact custodyStep_of_exec (.data _) (by rw [execCall, exec, hrun]; rfl) hkeeps
    | hasValue data =>
      exact custodyStep_of_exec (.flag _) (by rw [execCall, exec, h.represents.hasValue order data]; rfl) h
    | getTopData => exact custodyStep_of_exec (.data _) (by rw [execCall, exec, h.represents.getTopData]; rfl) h
    | getBottomData =>
      exact custodyStep_of_exec (.data _) (by rw [execCall, exec, h.represents.getBottomData]; rfl) h
  | getNodenum => exact custodyStep_of_exec _ rfl h
  | getRefnum => exact custodyStep_of_exec _ rfl h
  | makeNode data =>
    obtain ⟨this', mem', node, q', hrun, hkeeps⟩ := h.makeNode data
    exact custodyStep_of_exec (.node (some node) (mem'.read node)) (by rw [execCall, hrun]; rfl) hkeeps
  | trashNode node =>
    obtain ⟨this', mem', q', hrun, hkeeps⟩ := h.trashNode hc
    exact custodyStep_of_exec .unit (by rw [execCall, hrun]; rfl) hkeeps
  | reset => exact hc.elim

/-! ## Runs -/

/-- In every run of calls from a made tree in which the caller gives away only what
it holds, each call returns, so none touches a freed node, and after each call
every live node has exactly one owner. -/
theorem nodes_have_one_owner (order : TotalOrder cmp) (calls : List (Call D))
    (hcalls : Guarded (custodyStep cmp) GivesHeld makeCustody calls) (k : Nat) :
    ∃ s rets, run (custodyStep cmp) makeCustody (calls.take k) = some (s, rets) ∧ OneOwner s := by
  have hstep : ∀ (s : Custody D) (c : Call D), (∃ t q, Keeps cmp s t q) → GivesHeld s c →
      ∃ s' ret, custodyStep cmp s c = some (s', ret) ∧ ∃ t q, Keeps cmp s' t q := by
    intro s c hkeeps hc
    obtain ⟨t, q, h⟩ := hkeeps
    exact custodyStep_keeps order h hc
  obtain ⟨s, rets, hrun, t, q, h⟩ := run_total hstep ⟨.nil, [], keeps_make⟩ (hcalls.take k)
  exact ⟨s, rets, hrun, h.oneOwner⟩

/-- A two-child delete, a popped node that goes back and is merged, and one that is
discarded. -/
theorem nodes_have_one_owner_run :
    ∃ s rets, run (custodyStep bintreecmpInt32) makeCustody
        ([.op (.insertData 5), .op (.insertData 2), .op (.insertData 8), .op (.insertData 3), .op (.deleteValue 5),
          .op (.popNode 2), .op (.insertData 2), .op (.insertNode 1 ⟨2, 1⟩), .op .popTopNode,
          .trashNode 2].take 10) = some (s, rets) ∧ OneOwner s :=
  nodes_have_one_owner bintreecmpInt32_order _ (by decide +kernel) 10

end Devclego.Tree

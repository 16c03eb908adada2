import Devclego.Tree.Alike
import Devclego.Tree.FiniteMap

/-!
# Reset

`bintree_reset` empties the tree and the recycle puffer, but it leaves the
caches and the duplicate counter to what trashing made of them. Trashing repairs
a cache from a root that is still linked, so a cache that was set stays set. A
reset therefore gives a fresh tree exactly when there was nothing to reset.
-/
namespace Devclego.Tree

open Foundation Puffers

variable {D : Type}

/-- What a caller may expect of a newly made tree. -/
structure FreshTree (cmp : D → D → Int) (this : Bintree D) (mem : Mem D) : Prop where
  getTop : bintreeGetTopData this mem = some none
  getBottom : bintreeGetBottomData this mem = some none
  nodenum : bintreeGetNodenum this = 0
  refnum : bintreeGetRefnum this = 0
  hasValue : ∀ data, bintreeHasValue cmp this mem data = some false
  kept : ∀ a, this.root = some a ∨ this.top = some a ∨ this.bottom = some a →
    (mem.read a).isSome ∧ some a ∉ this.recycle.items
  recycled : ∀ a, some a ∈ this.recycle.items → (mem.read a).isSome
  results : ∀ calls : List (Call D), (run (execCall cmp) (this, mem) calls).map Prod.snd =
    (run (execCall cmp) (makeBintree, mem) calls).map Prod.snd

/-- A record without nodes whose caches and duplicate counter may hold anything. -/
structure Emptied (this : Bintree D) (mem : Mem D) (q : List Addr) : Prop where
  root : this.root = none
  count : this.nodeCounter = 0
  quiet : this.duplicateNotifier = none
  recycle : this.recycle.Holds recycleSize q
  pooled : ∀ a ∈ q, (mem.read a).isSome
  distinct : q.Nodup

/-- The states that calls and resets lead to. -/
def Reachable (cmp : D → D → Int) (s : Bintree D × Mem D) : Prop :=
  (∃ t q, Represents cmp s.1 s.2 t q) ∨ ∃ q, Emptied s.1 s.2 q

variable {cmp : D → D → Int} {this this' : Bintree D} {mem mem' : Mem D} {t : Shape (Stored D)}
  {q : List Addr}

theorem Emptied.search (h : Emptied this mem q) (data : D) :
    searchValue cmp this mem data = some (none, none) := by
  rw [searchValue, h.root]
  rfl

/-- Forgetting stale caches leaves an ordinary empty tree. -/
theorem Emptied.represents (cmp : D → D → Int) (h : Emptied this mem q) :
    Represents cmp { this with top := none, bottom := none } mem .nil q where
  root := h.root
  top := cached_nil
  bottom := cached_nil
  count := h.count
  quiet := h.quiet
  holds := trivial
  increasing := increasing_nil
  recycle := h.recycle
  pooled := h.pooled
  distinct := h.distinct

theorem Represents.emptied (h : Represents cmp { this with top := none, bottom := none } mem .nil q) :
    Emptied this mem q :=
  ⟨h.root, h.count, h.quiet, h.recycle, h.pooled, h.distinct⟩

/-! ## Calls on an emptied record -/

/-- The first insertion sets both caches, whatever they were. -/
theorem Emptied.insertRoot (h : Emptied this mem q) (node : Addr) :
    insertRoot cmp this mem node = insertRoot cmp { this with top := none, bottom := none } mem node := by
  have hroot := h.root
  have hone : this.nodeCounter + 1 = 1 := by rw [h.count]; rfl
  simp [Tree.insertRoot, hroot, insertIntoTree, insertExtremes, hone]

theorem Emptied.make (h : Emptied this mem q) {data : D} {node : Addr}
    (hmake : makeBintreenode this mem data = some (this', mem', node)) :
    ∃ q', Emptied this' mem' q' ∧ mem'.read node = some (nodeCell ⟨data, 1⟩ none none) ∧ node ∉ q' := by
  have hrep := h.represents fun _ _ => 0
  obtain ⟨this1, mem1, a, q', hmake1, -, hrep1, hread, hfresh, -⟩ := hrep.make data
  have hsame : makeBintreenode { this with top := none, bottom := none } mem data =
      (makeBintreenode this mem data).map fun r => ({ r.1 with top := none, bottom := none }, r.2) := by
    simp only [makeBintreenode]
    split
    · rfl
    · cases (datapufferRead this.recycle).2 with
      | none => rfl
      | some a => simp [Option.map_bind]
  rw [hsame, hmake, Option.map_some, Option.some.injEq, Prod.mk.injEq, Prod.mk.injEq] at hmake1
  obtain ⟨rfl, rfl, rfl⟩ := hmake1
  exact ⟨q', hrep1.emptied, hread, fun hm => hfresh (by simpa using hm)⟩

theorem Emptied.insertNode (order : TotalOrder cmp) {node : Addr} {e : Stored D} (h : Emptied this mem q)
    (hi : mem.read node = some (nodeCell e none none)) (hfresh : node ∉ q) :
    ∃ this' mem' t' q', Tree.insertRoot cmp this mem node = some (this', mem') ∧
      Represents cmp this' mem' t' q' := by
  obtain ⟨this', mem', t', q', i, hrun, hrep, -, -, -, -⟩ :=
    (h.represents cmp).insert order hi (by simpa using hfresh)
  exact ⟨this', mem', t', q', (h.insertRoot node).trans hrun, hrep⟩

theorem Emptied.popNode (h : Emptied this mem q) (data : D) :
    bintreePopNode cmp this mem data = some (this, mem, none) :=
  popFromTree_absent 1 ⟨none, h.search data⟩

/-- Popping the node of a stale cache finds nothing, if the cache can be read at all. -/
theorem Emptied.popCached {cached : Ptr} {r : Bintree D × Mem D × Ptr} (h : Emptied this mem q)
    (hrun : (match cached with
      | none => some (this, mem, none)
      | some a => (mem.read a).bind fun n => bintreePopNode cmp this mem n.data) = some r) :
    r = (this, mem, none) := by
  cases cached with
  | none => exact (Option.some.inj hrun).symm
  | some a =>
    obtain ⟨n, -, hpop⟩ := Option.bind_eq_some_iff.mp hrun
    rw [h.popNode] at hpop
    exact (Option.some.inj hpop).symm

theorem Emptied.derefCached {cached : Ptr} {r : Bintree D × Mem D × Option D} (h : Emptied this mem q)
    (hrun : (match cached with
      | none => some (this, mem, none)
      | some a => (mem.read a).bind fun n => (derefFromTree cmp this mem n.data).bind fun s =>
          some (s.1, s.2, some n.data)) = some r) :
    (r.1, r.2.1) = (this, mem) := by
  cases cached with
  | none =>
    cases hrun
    rfl
  | some a =>
    obtain ⟨n, -, hderef⟩ := Option.bind_eq_some_iff.mp hrun
    rw [derefFromTree_absent ⟨none, h.search n.data⟩] at hderef
    cases hderef
    rfl

/-- Every search of an emptied record fails, so nothing but an insertion changes
it. A function that starts from a stale cache may fault. -/
theorem Emptied.exec (order : TotalOrder cmp) (h : Emptied this mem q) {o : Op D}
    (ho : Callable (this, mem) o) {s' : Bintree D × Mem D} {ret : Ret D}
    (hrun : exec cmp (this, mem) o = some (s', ret)) : Reachable cmp s' := by
  have hsame : Reachable cmp (this, mem) := Or.inr ⟨q, h⟩
  cases o with
  | insertData data =>
    simp only [Tree.exec, bintreeInsertData, Option.bind_eq_bind, Option.map_eq_some_iff,
      Option.bind_eq_some_iff] at hrun
    obtain ⟨⟨this', mem'⟩, ⟨⟨this1, mem1, node⟩, hmake, hins⟩, he⟩ := hrun
    obtain ⟨q1, h1, hread, hfresh⟩ := h.make hmake
    obtain ⟨this2, mem2, t', q', hins', hrep⟩ := h1.insertNode order hread hfresh
    rw [hins'] at hins
    cases hins
    cases he
    exact Or.inl ⟨t', q', hrep⟩
  | insertNode node e =>
    have hfresh : node ∉ q := fun hm => ho.unpooled (mem_items h.recycle hm)
    obtain ⟨this2, mem2, t', q', hins', hrep⟩ := h.insertNode order ho.stored hfresh
    obtain ⟨r, hr, he⟩ := Option.map_eq_some_iff.mp hrun
    cases hins'.symm.trans hr
    cases he
    exact Or.inl ⟨t', q', hrep⟩
  | deleteValue data =>
    have hderef : derefFromTree cmp this mem data = some (this, mem) :=
      derefFromTree_absent ⟨none, h.search data⟩
    simp only [Tree.exec, bintreeDeleteValue, hderef, Option.map_some, Option.some.injEq] at hrun
    cases hrun
    exact hsame
  | popNode data =>
    simp only [Tree.exec, h.popNode, Option.map_some, Option.some.injEq] at hrun
    cases hrun
    exact hsame
  | popTopNode =>
    obtain ⟨r, hr, he⟩ := Option.map_eq_some_iff.mp hrun
    cases h.popCached hr
    cases he
    exact hsame
  | popBottomNode =>
    obtain ⟨r, hr, he⟩ := Option.map_eq_some_iff.mp hrun
    cases h.popCached hr
    cases he
    exact hsame
  | popTopData =>
    obtain ⟨r, hr, he⟩ := Option.map_eq_some_iff.mp hrun
    cases he
    exact h.derefCached hr ▸ hsame
  | popBottomData =>
    obtain ⟨r, hr, he⟩ := Option.map_eq_some_iff.mp hrun
    cases he
    exact h.derefCached hr ▸ hsame
  | hasValue data =>
    obtain ⟨r, -, he⟩ := Option.map_eq_some_iff.mp hrun
    cases he
    exact hsame
  | getTopData =>
    obtain ⟨r, -, he⟩ := Option.map_eq_some_iff.mp hrun
    cases he
    exact hsame
  | getBottomData =>
    obtain ⟨r, -, he⟩ := Option.map_eq_some_iff.mp hrun
    cases he
    exact hsame

/-! ## What trashing keeps -/

theorem getRightestValue_isSome {a : Addr} {p : Ptr} (h : getRightestValue mem (some a) = some p) :
    p.isSome := by
  obtain ⟨b, -, rfl⟩ := Option.map_eq_some_iff.mp h
  rfl

/-- Fields that neither a repair nor a trashing touches, and a set top cache that
stays set as long as there is a root. -/
structure Kept (this this' : Bintree D) : Prop where
  root : this'.root = this.root
  dups : this'.duplicateCounter = this.duplicateCounter
  quiet : this'.duplicateNotifier = this.duplicateNotifier
  top : this.root.isSome → this.top.isSome → this'.top.isSome

theorem Kept.refl (this : Bintree D) : Kept this this := ⟨rfl, rfl, rfl, fun _ h => h⟩

theorem Kept.trans {this'' : Bintree D} (h : Kept this this') (h' : Kept this' this'') :
    Kept this this'' where
  root := h'.root.trans h.root
  dups := h'.dups.trans h.dups
  quiet := h'.quiet.trans h.quiet
  top hroot htop := h'.top (by rw [h.root]; exact hroot) (h.top hroot htop)

theorem refreshTop_kept (h : refreshTop this mem = some this') :
    Kept this this' ∧ this'.recycle = this.recycle ∧ this'.nodeCounter = this.nodeCounter := by
  simp only [refreshTop, Option.bind_eq_bind, Option.bind_eq_some_iff] at h
  obtain ⟨n, -, p, hp, he⟩ := h
  cases he
  refine ⟨⟨rfl, rfl, rfl, fun hroot _ => ?_⟩, rfl, rfl⟩
  obtain ⟨a, ha⟩ : ∃ a, (if n.left.isSome then n.left else this.root) = some a := by
    split
    · exact Option.isSome_iff_exists.mp ‹_›
    · exact Option.isSome_iff_exists.mp hroot
  rw [ha] at hp
  exact getRightestValue_isSome hp

theorem refreshBottom_kept (h : refreshBottom this mem = some this') :
    Kept this this' ∧ this'.recycle = this.recycle ∧ this'.nodeCounter = this.nodeCounter := by
  simp only [refreshBottom, Option.bind_eq_bind, Option.bind_eq_some_iff] at h
  obtain ⟨n, -, p, -, he⟩ := h
  cases he
  exact ⟨⟨rfl, rfl, rfl, fun _ htop => htop⟩, rfl, rfl⟩

theorem refreshExtremes_kept {node : Addr} (h : refreshExtremes this mem node = some this') :
    Kept this this' ∧ this'.recycle = this.recycle ∧ this'.nodeCounter = this.nodeCounter := by
  simp only [refreshExtremes, Option.bind_eq_bind, Option.bind_eq_some_iff] at h
  obtain ⟨this1, h1, h2⟩ := h
  have hk1 : Kept this this1 ∧ this1.recycle = this.recycle ∧ this1.nodeCounter = this.nodeCounter := by
    rw [refreshIfTop] at h1
    split at h1
    · exact refreshTop_kept h1
    · cases h1
      exact ⟨Kept.refl _, rfl, rfl⟩
  have hk2 : Kept this1 this' ∧ this'.recycle = this1.recycle ∧ this'.nodeCounter = this1.nodeCounter := by
    rw [refreshIfBottom] at h2
    split at h2
    · exact refreshBottom_kept h2
    · cases h2
      exact ⟨Kept.refl _, rfl, rfl⟩
  exact ⟨hk1.1.trans hk2.1, hk2.2.1.trans hk1.2.1, hk2.2.2.trans hk1.2.2⟩

theorem trashBintreenode_kept {node : Addr} (hrec : this.recycle.Holds recycleSize q)
    (h : trashBintreenode this mem node = some (this', mem')) :
    Kept this this' ∧ ∃ q', this'.recycle.Holds recycleSize q' := by
  simp only [trashBintreenode, Option.bind_eq_bind, Option.bind_eq_some_iff] at h
  obtain ⟨this1, h1, h2⟩ := h
  obtain ⟨hk, hrec1, -⟩ := refreshExtremes_kept h1
  rw [← hrec1] at hrec
  split at h2
  · obtain ⟨m, -, he⟩ := Option.bind_eq_some_iff.mp h2
    cases he
    exact ⟨hk, q, hrec⟩
  · rename_i hnf
    cases h2
    have hlt : q.length < recycleSize := by
      have hne := mt hrec.isfull_iff.mpr hnf
      have hle := hrec.fits
      omega
    exact ⟨⟨hk.root, hk.dups, hk.quiet, hk.top⟩, q ++ [node], hrec.write hlt node⟩

theorem ruinFull_kept {fuel : Nat} {node : Ptr} (hrec : this.recycle.Holds recycleSize q)
    (h : ruinFull fuel this mem node = some (this', mem')) :
    Kept this this' ∧ ∃ q', this'.recycle.Holds recycleSize q' := by
  induction fuel generalizing this mem this' mem' node q with
  | zero => cases h
  | succ fuel ih =>
    cases node with
    | none =>
      cases h
      exact ⟨Kept.refl this, q, hrec⟩
    | some node =>
      simp only [ruinFull, Option.bind_eq_bind, Option.bind_eq_some_iff] at h
      obtain ⟨n, -, ⟨this1, mem1⟩, h1, n1, -, ⟨this2, mem2⟩, h2, ⟨this3, mem3⟩, h3, he⟩ := h
      cases he
      obtain ⟨hk1, q1, hrec1⟩ := ih hrec h1
      obtain ⟨hk2, q2, hrec2⟩ := ih hrec1 h2
      obtain ⟨hk3, q3, hrec3⟩ := trashBintreenode_kept hrec2 h3
      have hk := (hk1.trans hk2).trans hk3
      exact ⟨⟨hk.root, hk.dups, hk.quiet, hk.top⟩, q3, hrec3⟩

/-- A reset that returns leaves no node and an empty puffer, the duplicate counter
as it was and, if there was a node, a top cache that is not null. -/
theorem bintreeReset_emptied (hrec : this.recycle.Holds recycleSize q)
    (hquiet : this.duplicateNotifier = none) (h : bintreeReset this mem = some (this', mem')) :
    Emptied this' mem' [] ∧ this'.duplicateCounter = this.duplicateCounter ∧
      (this.root.isSome → this.top.isSome → this'.top.isSome) ∧
      (this.root = none → this'.top = this.top ∧ this'.bottom = this.bottom) := by
  simp only [bintreeReset, Option.bind_eq_bind, Option.bind_eq_some_iff] at h
  obtain ⟨⟨this1, mem1⟩, h1, mem2, -, he⟩ := h
  cases he
  obtain ⟨hk, q1, hrec1⟩ := ruinFull_kept hrec h1
  refine ⟨⟨rfl, rfl, hk.quiet.trans hquiet, hrec1.clear.1, by simp, List.nodup_nil⟩, hk.dups, hk.top,
    fun hroot => ?_⟩
  rw [hroot] at h1
  cases h1
  exact ⟨rfl, rfl⟩

/-! ## Runs with resets -/

theorem execCall_reachable (order : TotalOrder cmp) (s : Bintree D × Mem D) (c : Call D)
    (s' : Bintree D × Mem D) (ret : Ret D) (h : Reachable cmp s) (hc : CallAllowed s c)
    (hrun : execCall cmp s c = some (s', ret)) : Reachable cmp s' := by
  obtain ⟨this, mem⟩ := s
  cases c with
  | op o =>
    rcases h with ⟨t, q, hrep⟩ | ⟨q, hemp⟩
    · obtain ⟨this', mem', ret', t', q', hrun', hrep', -, -, -, -⟩ := exec_spec order hrep hc
      cases hrun.symm.trans hrun'
      exact Or.inl ⟨t', q', hrep'⟩
    · exact hemp.exec order hc hrun
  | getNodenum =>
    cases hrun
    exact h
  | getRefnum =>
    cases hrun
    exact h
  | makeNode data =>
    obtain ⟨⟨this', mem', node⟩, hmake, he⟩ := Option.map_eq_some_iff.mp hrun
    cases he
    rcases h with ⟨t, q, hrep⟩ | ⟨q, hemp⟩
    · obtain ⟨this1, mem1, a, q', hmake', -, hrep', -, -, -⟩ := hrep.make data
      cases hmake.symm.trans hmake'
      exact Or.inl ⟨t, q', hrep'⟩
    · obtain ⟨q', hemp', -, -⟩ := hemp.make hmake
      exact Or.inr ⟨q', hemp'⟩
  | trashNode node =>
    obtain ⟨⟨this', mem'⟩, htrash, he⟩ := Option.map_eq_some_iff.mp hrun
    cases he
    obtain ⟨e, hspare⟩ := hc
    rcases h with ⟨t, q, hrep⟩ | ⟨q, hemp⟩
    · obtain ⟨this1, mem1, q', htrash', hrep', -, -⟩ := hrep.trashNode hspare.stored (hrep.spare hspare)
      cases htrash.symm.trans htrash'
      exact Or.inl ⟨t, q', hrep'⟩
    · have haq : node ∉ q := fun hm => hspare.unpooled (mem_items hemp.recycle hm)
      obtain ⟨this1, href, -⟩ := Option.bind_eq_some_iff.mp htrash
      obtain ⟨hk, hrec, hcount⟩ := refreshExtremes_kept href
      obtain ⟨recycle, mem1, q', htrash', hrec', -, hpool, hq⟩ :=
        trashBintreenode_spec href (hrec ▸ hemp.recycle) hemp.pooled hspare.stored haq
      cases htrash.symm.trans htrash'
      refine Or.inr ⟨q', hk.root.trans hemp.root, hcount.trans hemp.count, hk.quiet.trans hemp.quiet, hrec',
        hpool, ?_⟩
      rcases hq with rfl | ⟨rfl, -⟩
      · exact List.nodup_append.mpr ⟨hemp.distinct, by simp, fun b hb c hc => by
          rw [List.mem_singleton.mp hc]
          exact ne_of_mem_of_not_mem hb haq⟩
      · exact hemp.distinct
  | reset =>
    obtain ⟨⟨this', mem'⟩, hreset, he⟩ := Option.map_eq_some_iff.mp hrun
    cases he
    rcases h with ⟨t, q, hrep⟩ | ⟨q, hemp⟩
    · exact Or.inr ⟨[], (bintreeReset_emptied hrep.recycle hrep.quiet hreset).1⟩
    · exact Or.inr ⟨[], (bintreeReset_emptied hemp.recycle hemp.quiet hreset).1⟩

theorem run_reachable (order : TotalOrder cmp) {mem0 : Mem D} {calls : List (Call D)}
    {s : Bintree D × Mem D} {rets : List (Ret D)}
    (hcalls : Guarded (execCall cmp) CallAllowed (makeBintree, mem0) calls)
    (hrun : run (execCall cmp) (makeBintree, mem0) calls = some (s, rets)) : Reachable cmp s :=
  run_preserves (execCall_reachable order) (Or.inl ⟨.nil, [], represents_make mem0⟩) hcalls hrun

/-! ## When a reset gives a fresh tree -/

theorem freeItems_spec (hlive : ∀ a ∈ q, (mem.read a).isSome) (hq : q.Nodup) :
    ∃ mem', freeItems mem (q.map some) = some mem' := by
  induction q generalizing mem with
  | nil => exact ⟨mem, rfl⟩
  | cons a q ih =>
    obtain ⟨n, hn⟩ := Option.isSome_iff_exists.mp (hlive a (by simp))
    obtain ⟨haq, hq⟩ := List.nodup_cons.mp hq
    have hlive' : ∀ b ∈ q, ((mem.set a none).read b).isSome := by
      intro b hb
      rw [mem.read_set_ne (ne_of_mem_of_not_mem hb haq)]
      exact hlive b (by simp [hb])
    obtain ⟨mem', h⟩ := ih hlive' hq
    exact ⟨mem', by simp [freeItems, Memory.free_live hn, h]⟩

/-- Resetting an empty tree frees the recycled nodes and changes nothing else. -/
theorem Emptied.reset (h : Emptied this mem q) :
    ∃ mem', bintreeReset this mem =
      some ({ this with recycle := (datapufferClear this.recycle).1 }, mem') := by
  obtain ⟨mem', hfree⟩ := freeItems_spec h.pooled h.distinct
  have hroot := h.root
  have hcount := h.count
  refine ⟨mem', ?_⟩
  simp only [bintreeReset, hroot, ruinFull, h.recycle.clear.2, hfree, Option.bind_eq_bind,
    Option.bind_some, Option.some.injEq, Prod.mk.injEq, and_true]
  rw [hcount]

/-- A puffer that stores nothing has null in every slot. -/
theorem not_mem_items {r : Datapuffer Addr} (h : r.Holds recycleSize []) (a : Addr) :
    some a ∉ r.items := by
  intro hm
  obtain ⟨i, hi, hget⟩ := List.mem_iff_getElem.mp hm
  have hlen := h.items_length
  have hstart := h.start_lt
  have hslot := h.slots ((i + (r.items.length - r.start)) % r.items.length)
    (Nat.mod_lt _ (by omega))
  rw [Nat.add_mod_mod, show r.start + (i + (r.items.length - r.start)) = i + r.items.length by omega,
    Nat.add_mod_right, Nat.mod_eq_of_lt hi, List.getElem?_eq_getElem hi, hget] at hslot
  simp at hslot

/-- A cache that is not null would give its datum or fault. -/
theorem FreshTree.caches_null (h : FreshTree cmp this mem) : this.top = none ∧ this.bottom = none := by
  constructor
  · have hget := h.getTop
    cases htop : this.top with
    | none => rfl
    | some a => cases hread : mem.read a <;> simp [bintreeGetTopData, htop, hread] at hget
  · have hget := h.getBottom
    cases hbot : this.bottom with
    | none => rfl
    | some a => cases hread : mem.read a <;> simp [bintreeGetBottomData, hbot, hread] at hget

/-- The top cache of a tree is null only when the tree is empty. -/
theorem Represents.emptied_of_top (h : Represents cmp this mem t q) (htop : this.top = none) :
    Emptied this mem q := by
  have hnil : t = .nil := by
    have haddrs := h.top.null_iff.mp htop
    exact Shape.eq_nil_of_inorder (List.map_eq_nil_iff.mp haddrs)
  subst hnil
  exact ⟨h.root, h.count, h.quiet, h.recycle, h.pooled, by simpa using h.distinct⟩

theorem Represents.top_isSome (h : Represents cmp this mem t q) (hroot : this.root.isSome) :
    this.top.isSome := by
  by_contra hnone
  rw [Option.not_isSome_iff_eq_none] at hnone
  simp [(h.emptied_of_top hnone).root] at hroot

/-- A reset that gives a fresh tree had nothing to free: a cache that is set at a
node survives the reset. -/
theorem FreshTree.nothing_reset (hrec : this.recycle.Holds recycleSize q)
    (hquiet : this.duplicateNotifier = none) (hcached : this.root.isSome → this.top.isSome)
    (hreset : bintreeReset this mem = some (this', mem')) (h : FreshTree cmp this' mem') :
    this.top = none ∧ this.bottom = none ∧ this.duplicateCounter = 0 := by
  obtain ⟨hemp, hdup, htop, hkeep⟩ := bintreeReset_emptied hrec hquiet hreset
  obtain ⟨hnull, hnull'⟩ := h.caches_null
  have hroot : this.root = none := by
    by_contra hne
    have hsome := Option.isSome_iff_ne_none.mpr hne
    have hset := htop hsome (hcached hsome)
    simp [hnull] at hset
  have hzero : this'.duplicateCounter = 0 := by
    have hrefnum := h.refnum
    rwa [bintreeGetRefnum, hemp.count, Int32.zero_add] at hrefnum
  exact ⟨(hkeep hroot).1.symm.trans hnull, (hkeep hroot).2.symm.trans hnull', hdup ▸ hzero⟩

theorem Emptied.alike_make (h : Emptied this mem []) (htop : this.top = none) (hbot : this.bottom = none)
    (hdup : this.duplicateCounter = 0) : Alike this makeBintree := by
  obtain ⟨root, bottom, top, recycle, n, d, w⟩ := this
  obtain ⟨rfl, rfl, rfl, hrec, -, -⟩ := h
  obtain rfl : top = none := htop
  obtain rfl : bottom = none := hbot
  obtain rfl : d = 0 := hdup
  exact .mk _ _ _ _ _ _ _ _ [] hrec (Datapuffer.holds_ctor (by decide))

/-- Without nodes, without caches and without duplicates there is no difference
to a new tree, whatever slot the empty puffer starts at. -/
theorem Emptied.fresh (h : Emptied this mem []) (htop : this.top = none) (hbot : this.bottom = none)
    (hdup : this.duplicateCounter = 0) : FreshTree cmp this mem where
  getTop := by simp [bintreeGetTopData, htop]
  getBottom := by simp [bintreeGetBottomData, hbot]
  nodenum := h.count
  refnum := by simp [bintreeGetRefnum, h.count, hdup]
  hasValue := by
    intro data
    rw [bintreeHasValue, h.search]
    rfl
  kept := by
    intro a ha
    simp [h.root, htop, hbot] at ha
  recycled := by
    intro a ha
    exact absurd ha (not_mem_items h.recycle a)
  results := outputs_alike (h.alike_make htop hbot hdup)

/-- In every state a run of calls and resets reaches: a reset gives a fresh tree
exactly when both caches are null and the duplicate counter is zero. -/
theorem reset_fresh_iff (order : TotalOrder cmp) (mem0 : Mem D) (calls : List (Call D))
    (hcalls : Guarded (execCall cmp) CallAllowed (makeBintree, mem0) calls) (rets : List (Ret D))
    (hrun : run (execCall cmp) (makeBintree, mem0) calls = some ((this, mem), rets)) :
    (∃ this' mem', bintreeReset this mem = some (this', mem') ∧ FreshTree cmp this' mem') ↔
      this.top = none ∧ this.bottom = none ∧ this.duplicateCounter = 0 := by
  have hreach := run_reachable order hcalls hrun
  constructor
  · intro hall
    obtain ⟨this', mem', hreset, hfresh⟩ := hall
    rcases hreach with ⟨t, q, hrep⟩ | ⟨q, hemp⟩
    · exact hfresh.nothing_reset hrep.recycle hrep.quiet hrep.top_isSome hreset
    · have hroot : this.root = none := hemp.root
      exact hfresh.nothing_reset hemp.recycle hemp.quiet (by simp [hroot]) hreset
  · intro hall
    obtain ⟨htop, hbot, hdup⟩ := hall
    obtain ⟨q, hemp⟩ : ∃ q, Emptied this mem q := by
      rcases hreach with ⟨t, q, hrep⟩ | h
      · exact ⟨q, hrep.emptied_of_top htop⟩
      · exact h
    obtain ⟨mem', hreset⟩ := hemp.reset
    have hemp' := (bintreeReset_emptied hemp.recycle hemp.quiet hreset).1
    exact ⟨_, mem', hreset, hemp'.fresh htop hbot hdup⟩

/-- A tree that has been filled and emptied again, before its reset. -/
theorem reset_fresh_iff_emptied :
    ∃ this mem rets, run (execCall bintreecmpInt32) (makeBintree, ⟨[]⟩)
        [.op (.insertData 1), .op (.insertData 1), .op (.deleteValue 1), .op (.popNode 1)] =
          some ((this, mem), rets) ∧
      ((∃ this' mem', bintreeReset this mem = some (this', mem') ∧
        FreshTree bintreecmpInt32 this' mem') ↔
          this.top = none ∧ this.bottom = none ∧ this.duplicateCounter = 0) := by
  refine ⟨_, _, _, rfl, ?_⟩
  refine reset_fresh_iff bintreecmpInt32_order ⟨[]⟩
    [.op (.insertData 1), .op (.insertData 1), .op (.deleteValue 1), .op (.popNode 1)] ?_ _ rfl
  exact ⟨trivial, fun _ _ _ => ⟨trivial, fun _ _ _ => ⟨trivial, fun _ _ _ =>
    ⟨trivial, fun _ _ _ => trivial⟩⟩⟩⟩

/-- One node is enough: after the reset the top cache points at the freed node,
and reading its datum is an access to freed memory. -/
theorem reset_leaves_top :
    ∃ s rets this' mem', run (execCall bintreecmpInt32) (makeBintree, ⟨[]⟩) [.op (.insertData 1)] =
        some (s, rets) ∧
      bintreeReset s.1 s.2 = some (this', mem') ∧ bintreeGetTopData this' mem' = none ∧
      ¬ FreshTree bintreecmpInt32 this' mem' := by
  refine ⟨_, _, _, _, rfl, rfl, rfl, fun h => ?_⟩
  have htop := h.getTop
  exact absurd htop (by decide +kernel)

end Devclego.Tree

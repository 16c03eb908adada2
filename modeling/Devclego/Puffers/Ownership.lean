import Devclego.Foundation.Exclusive
import Devclego.Foundation.Machine
import Devclego.Puffers.Recycle

/-!
# A recycle puffer never shares an item

An item is in the pool, held by one caller, or carried by one call in progress; a
receiver call is pending or settled. Both are exclusive places, so every statement is
an arrival, a move or a departure, and the lock keeps the test of a call true until
the call acts on it.
-/
namespace Devclego.Puffers

open Foundation

variable {ι : Type}

namespace Pc

/-- The item that a call in progress has and nobody holds. -/
def carries : Pc ι → Option ι
  | .receiverLock item _ | .receiverTest item _ | .receiverFull item _ | .receiverDtor item _
  | .receiverClean item _ | .receiverWrite item _ => some item
  | .supplierUnlock result => result
  | _ => none

/-- The receiver call whose item is neither pooled nor destroyed yet. -/
def pending : Pc ι → Option Nat
  | .receiverLock _ call | .receiverTest _ call | .receiverFull _ call | .receiverDtor _ call
  | .receiverClean _ call | .receiverWrite _ call => some call
  | _ => none

/-- Between `spin_lock` and `spin_unlock`. -/
def critical : Pc ι → Bool
  | .receiverTest _ _ | .receiverFull _ _ | .receiverClean _ _ | .receiverWrite _ _ | .receiverUnlock
  | .supplierTest | .supplierEmpty | .supplierRead | .supplierUnlock _ => true
  | _ => false

/-- What a thread in the section knows from its test. -/
def Knows (puffer : Datapuffer ι) (clean : ι → Bool) : Pc ι → Prop
  | .receiverClean _ _ => datapufferIsfull puffer = false
  | .receiverWrite item _ => datapufferIsfull puffer = false ∧ clean item = true
  | .supplierRead => datapufferIsempty puffer = false
  | .supplierUnlock result => ∃ item, result = some item ∧ clean item = true
  | _ => True

theorem knows_of_not_critical {pc : Pc ι} (h : pc.critical ≠ true) (puffer : Datapuffer ι)
    (clean : ι → Bool) : pc.Knows puffer clean := by
  cases pc <;> trivial

/-- Knowledge survives when the items that calls carry stay clean. -/
theorem Knows.of_clean {pc : Pc ι} {puffer : Datapuffer ι} {clean clean' : ι → Bool}
    (h : pc.Knows puffer clean)
    (hkeep : ∀ x, pc.carries = some x → clean x = true → clean' x = true) : pc.Knows puffer clean' := by
  cases pc with
  | receiverWrite item call => exact ⟨h.1, hkeep item rfl h.2⟩
  | supplierUnlock result =>
    obtain ⟨item, rfl, hclean⟩ := h
    exact ⟨item, rfl, hkeep item rfl hclean⟩
  | receiverClean item call => exact h
  | supplierRead => exact h
  | idle | receiverLock | receiverTest | receiverFull | receiverDtor | receiverUnlock
  | supplierLock | supplierTest | supplierEmpty | supplierCtor => trivial

end Pc

inductive Place where
  | pool
  | held (t : Nat)
  | carried (t : Nat)
deriving DecidableEq

inductive CallPlace where
  | settled
  | pending (t : Nat)
deriving DecidableEq

namespace Recycler

/-- The items at a place. -/
def stock (s : Recycler ι) : Place → List ι
  | .pool => s.puffer.contents
  | .held t => s.held t
  | .carried t => (s.pc t).carries.toList

/-- The receiver calls at a place. -/
def calls (s : Recycler ι) : CallPlace → List Nat
  | .settled => s.settled.map Settled.call
  | .pending t => (s.pc t).pending.toList

/-- Every item is at one place and exists. -/
structure Stocked (s : Recycler ι) : Prop where
  exclusive : Exclusive s.stock
  live : ∀ p, ∀ x ∈ s.stock p, s.existing x = true

/-- Every receiver call is at one place, with the item that was given back. -/
structure Accounted (s : Recycler ι) : Prop where
  exclusive : Exclusive s.calls
  known : ∀ p, ∀ n ∈ s.calls p, n < s.returned.length
  complete : ∀ n < s.returned.length, ∃ p, n ∈ s.calls p
  settled_item : ∀ e ∈ s.settled, s.returned[e.call]? = some e.item
  pending_item : ∀ t n, (s.pc t).pending = some n → s.returned[n]? = (s.pc t).carries

/-- Only the thread that has the lock is in the section, and what it tested is so. -/
structure Guards (len : Nat) (s : Recycler ι) : Prop where
  holds : ∃ q, s.puffer.Holds len q
  locked : ∀ t, (s.pc t).critical = true → s.spin = some t
  clean : ∀ x ∈ s.puffer.contents, s.clean x = true
  knows : ∀ t, (s.pc t).Knows s.puffer s.clean

structure Owned (len : Nat) (s : Recycler ι) : Prop where
  stocked : s.Stocked
  accounted : s.Accounted
  guards : s.Guards len

variable {s s' : Recycler ι} {t : Nat} {len : Nat} {x : ι}

/-! ## Steps that move nothing -/

/-- Places that a step of thread `t` leaves as they are. -/
theorem stock_eq (hpc : ∀ u, u ≠ t → s'.pc u = s.pc u) (hheld : ∀ u, u ≠ t → s'.held u = s.held u) {k : Place}
    (hpool : k = .pool → s'.puffer.contents = s.puffer.contents)
    (hheldt : k = .held t → s'.held t = s.held t)
    (hcarried : k = .carried t → (s'.pc t).carries = (s.pc t).carries) : s'.stock k = s.stock k := by
  cases k with
  | pool => exact hpool rfl
  | held u =>
    by_cases hu : u = t
    · subst hu
      exact hheldt rfl
    · exact hheld u hu
  | carried u =>
    by_cases hu : u = t
    · subst hu
      exact congrArg Option.toList (hcarried rfl)
    · show (s'.pc u).carries.toList = (s.pc u).carries.toList
      rw [hpc u hu]

theorem Stocked.congr (h : s.Stocked) (hstock : ∀ k, s'.stock k = s.stock k)
    (hexisting : s'.existing = s.existing) : s'.Stocked where
  exclusive := h.exclusive.perm fun k => by rw [hstock k]
  live := by
    intro p x hx
    rw [hstock p] at hx
    rw [hexisting]
    exact h.live p x hx

theorem calls_eq (hpc : ∀ u, u ≠ t → s'.pc u = s.pc u) {k : CallPlace}
    (hsettled : k = .settled → s'.settled = s.settled)
    (hpending : k = .pending t → (s'.pc t).pending = (s.pc t).pending) : s'.calls k = s.calls k := by
  cases k with
  | settled => exact congrArg (List.map Settled.call) (hsettled rfl)
  | pending u =>
    by_cases hu : u = t
    · subst hu
      exact congrArg Option.toList (hpending rfl)
    · show (s'.pc u).pending.toList = (s.pc u).pending.toList
      rw [hpc u hu]

theorem Accounted.congr (h : s.Accounted) (hpc : ∀ u, u ≠ t → s'.pc u = s.pc u)
    (hsettled : s'.settled = s.settled) (hreturned : s'.returned = s.returned)
    (hpending : (s'.pc t).pending = (s.pc t).pending)
    (hcarries : (s'.pc t).pending ≠ none → (s'.pc t).carries = (s.pc t).carries) : s'.Accounted where
  exclusive := h.exclusive.perm fun k => by rw [calls_eq hpc (fun _ => hsettled) fun _ => hpending]
  known := by
    intro p n hn
    rw [calls_eq hpc (fun _ => hsettled) fun _ => hpending] at hn
    rw [hreturned]
    exact h.known p n hn
  complete := by
    intro n hn
    rw [hreturned] at hn
    obtain ⟨p, hp⟩ := h.complete n hn
    exact ⟨p, by rw [calls_eq hpc (fun _ => hsettled) fun _ => hpending]; exact hp⟩
  settled_item := by
    rw [hsettled, hreturned]
    exact h.settled_item
  pending_item := by
    intro u n hn
    rw [hreturned]
    by_cases hu : u = t
    · subst hu
      rw [hcarries (by rw [hn]; exact Option.some_ne_none n)]
      exact h.pending_item u n (hpending ▸ hn)
    · rw [hpc u hu] at hn ⊢
      exact h.pending_item u n hn

/-- The section is entered, left or gone on in by thread `t` alone. -/
theorem Guards.congr (h : s.Guards len) (hpc : ∀ u, u ≠ t → s'.pc u = s.pc u)
    (hpuffer : s'.puffer = s.puffer) (hclean : s'.clean = s.clean)
    (hothers : ∀ u, u ≠ t → (s.pc u).critical = true → s'.spin = some u)
    (hself : (s'.pc t).critical = true → s'.spin = some t)
    (hknows : (s'.pc t).Knows s.puffer s.clean) : s'.Guards len where
  holds := by rw [hpuffer]; exact h.holds
  locked := by
    intro u hu
    by_cases hut : u = t
    · rw [hut] at hu ⊢
      exact hself hu
    · rw [hpc u hut] at hu
      exact hothers u hut hu
  clean := by rw [hpuffer, hclean]; exact h.clean
  knows := by
    intro u
    rw [hpuffer, hclean]
    by_cases hut : u = t
    · rw [hut]
      exact hknows
    · rw [hpc u hut]
      exact h.knows u

/-- While `t` is in the section nobody else is. -/
theorem Guards.alone (h : s.Guards len) (ht : (s.pc t).critical = true) {u : Nat} (hu : u ≠ t) :
    (s.pc u).critical ≠ true := by
  intro hc
  have hsame := (h.locked t ht).symm.trans (h.locked u hc)
  exact hu (Option.some.inj hsame).symm

theorem Guards.none_critical (h : s.Guards len) (hfree : s.spin = none) (u : Nat) :
    (s.pc u).critical ≠ true := by
  intro hc
  rw [h.locked u hc] at hfree
  cases hfree

/-- A statement that moves no item, settles no call and touches only the lock. -/
theorem Owned.quiet (h : s.Owned len) (pc : Pc ι) (spin : Option Nat)
    (hcarries : pc.carries = (s.pc t).carries) (hpending : pc.pending = (s.pc t).pending)
    (hothers : ∀ u, u ≠ t → (s.pc u).critical = true → spin = some u)
    (hself : pc.critical = true → spin = some t) (hknows : pc.Knows s.puffer s.clean) :
    ({ s.setPc t pc with spin := spin } : Recycler ι).Owned len := by
  have hpc : ∀ u, u ≠ t → ({ s.setPc t pc with spin := spin } : Recycler ι).pc u = s.pc u :=
    fun u hu => Function.update_of_ne hu _ _
  have hat : ({ s.setPc t pc with spin := spin } : Recycler ι).pc t = pc := Function.update_self ..
  refine ⟨?_, ?_, ?_⟩
  · refine h.stocked.congr (fun k => ?_) rfl
    exact stock_eq hpc (fun _ _ => rfl) (fun _ => rfl) (fun _ => rfl) fun _ => by rw [hat, hcarries]
  · exact h.accounted.congr hpc rfl rfl (by rw [hat, hpending]) fun _ => by rw [hat, hcarries]
  · exact h.guards.congr hpc rfl rfl hothers (by rw [hat]; exact hself) (by rw [hat]; exact hknows)

/-- A thread takes the free lock. -/
theorem Owned.enter (h : s.Owned len) (hfree : s.spin = none) (pc : Pc ι)
    (hcarries : pc.carries = (s.pc t).carries) (hpending : pc.pending = (s.pc t).pending)
    (hknows : pc.Knows s.puffer s.clean) :
    ({ s.setPc t pc with spin := some t } : Recycler ι).Owned len :=
  h.quiet pc (some t) hcarries hpending (fun u _ hc => absurd hc (h.guards.none_critical hfree u))
    (fun _ => rfl) hknows

/-- A thread goes on in the section. -/
theorem Owned.within (h : s.Owned len) (hcritical : (s.pc t).critical = true) (pc : Pc ι)
    (hcarries : pc.carries = (s.pc t).carries) (hpending : pc.pending = (s.pc t).pending)
    (hknows : pc.Knows s.puffer s.clean) : (s.setPc t pc).Owned len :=
  h.quiet pc s.spin hcarries hpending (fun u _ hc => h.guards.locked u hc)
    (fun _ => h.guards.locked t hcritical) hknows

/-- A thread gives the lock back. -/
theorem Owned.leave (h : s.Owned len) (hcritical : (s.pc t).critical = true) (pc : Pc ι)
    (hoff : pc.critical ≠ true) (hcarries : pc.carries = (s.pc t).carries)
    (hpending : pc.pending = (s.pc t).pending) :
    ({ s.setPc t pc with spin := none } : Recycler ι).Owned len :=
  h.quiet pc none hcarries hpending (fun _ hu hc => absurd hc (h.guards.alone hcritical hu))
    (fun hc => absurd hc hoff) (Pc.knows_of_not_critical hoff _ _)

/-! ## Calls -/

/-- A receiver call begins. -/
theorem Accounted.open_call (h : s.Accounted) (hpc : ∀ u, u ≠ t → s'.pc u = s.pc u)
    (hidle : (s.pc t).pending = none) (hnew : (s'.pc t).pending = some s.returned.length)
    (hcarries : (s'.pc t).carries = some x) (hsettled : s'.settled = s.settled)
    (hreturned : s'.returned = s.returned ++ [x]) : s'.Accounted := by
  have hfresh : ∀ k, s.returned.length ∉ s.calls k := fun k hk => Nat.lt_irrefl _ (h.known k _ hk)
  have hat : s'.calls (.pending t) = [s.returned.length] := congrArg Option.toList hnew
  have hbefore : s.calls (.pending t) = [] := congrArg Option.toList hidle
  have hother : ∀ k, k ≠ .pending t → s'.calls k = s.calls k :=
    fun k hk => calls_eq hpc (fun _ => hsettled) fun he => absurd he hk
  refine ⟨h.exclusive.insert hfresh (by rw [hat, hbefore]) hother, ?_, ?_, ?_, ?_⟩
  · intro p n hn
    rw [hreturned, List.length_append, List.length_singleton]
    by_cases hp : p = .pending t
    · rw [hp, hat, List.mem_singleton] at hn
      omega
    · rw [hother p hp] at hn
      exact Nat.lt_succ_of_lt (h.known p n hn)
  · intro n hn
    rw [hreturned, List.length_append, List.length_singleton] at hn
    by_cases hlast : n = s.returned.length
    · exact ⟨.pending t, by rw [hat, hlast]; exact List.mem_singleton_self _⟩
    · obtain ⟨p, hp⟩ := h.complete n (by omega)
      have hne : p ≠ .pending t := by
        rintro rfl
        rw [hbefore] at hp
        cases hp
      exact ⟨p, by rw [hother p hne]; exact hp⟩
  · intro e he
    rw [hsettled] at he
    have hitem := h.settled_item e he
    rw [hreturned, List.getElem?_append_left (List.getElem?_eq_some_iff.mp hitem).1, hitem]
  · intro u n hn
    rw [hreturned]
    by_cases hu : u = t
    · subst hu
      rw [hnew] at hn
      cases hn
      rw [List.getElem?_concat_length, hcarries]
    · rw [hpc u hu] at hn ⊢
      have hlt : n < s.returned.length := by
        apply h.known (.pending u)
        show n ∈ (s.pc u).pending.toList
        rw [hn]
        exact List.mem_singleton_self n
      rw [List.getElem?_append_left hlt]
      exact h.pending_item u n hn

/-- A receiver call gets its fate. -/
theorem Accounted.settle {n : Nat} (h : s.Accounted) (hpc : ∀ u, u ≠ t → s'.pc u = s.pc u)
    (hpending : (s.pc t).pending = some n) (hcarries : (s.pc t).carries = some x)
    (hdone : (s'.pc t).pending = none) (fate : Fate) (hsettled : s'.settled = s.settled ++ [⟨n, x, fate⟩])
    (hreturned : s'.returned = s.returned) : s'.Accounted := by
  have hbefore : s.calls (.pending t) = [n] := congrArg Option.toList hpending
  have hat : s'.calls (.pending t) = [] := congrArg Option.toList hdone
  have hsettledAt : s'.calls .settled = s.calls .settled ++ [n] := by
    show s'.settled.map Settled.call = s.settled.map Settled.call ++ [n]
    rw [hsettled, List.map_append]
    rfl
  have hother : ∀ k, k ≠ .pending t → k ≠ .settled → s'.calls k = s.calls k :=
    fun k hk hk' => calls_eq hpc (fun he => absurd he hk') fun he => absurd he hk
  have hsub : ∀ p, ∀ m ∈ s'.calls p, ∃ p', m ∈ s.calls p' := by
    intro p m hm
    by_cases hp : p = .pending t
    · rw [hp, hat] at hm
      cases hm
    · by_cases hp' : p = .settled
      · rw [hp', hsettledAt, List.mem_append] at hm
        rcases hm with hm | hm
        · exact ⟨.settled, hm⟩
        · exact ⟨.pending t, by rw [hbefore]; exact hm⟩
      · exact ⟨p, by rw [← hother p hp hp']; exact hm⟩
  refine ⟨h.exclusive.move (l := .pending t) (m := .settled) (x := n) ?_ ?_ ?_ hother, ?_, ?_, ?_, ?_⟩
  · exact fun he => CallPlace.noConfusion he
  · rw [hbefore, hat]
  · rw [hsettledAt]
    exact List.perm_append_singleton n _
  · intro p m hm
    obtain ⟨p', hm'⟩ := hsub p m hm
    rw [hreturned]
    exact h.known p' m hm'
  · intro m hm
    rw [hreturned] at hm
    obtain ⟨p, hp⟩ := h.complete m hm
    by_cases hpt : p = .pending t
    · rw [hpt, hbefore] at hp
      exact ⟨.settled, by rw [hsettledAt]; exact List.mem_append_right _ hp⟩
    · by_cases hps : p = .settled
      · rw [hps] at hp
        exact ⟨.settled, by rw [hsettledAt]; exact List.mem_append_left _ hp⟩
      · exact ⟨p, by rw [hother p hpt hps]; exact hp⟩
  · intro e he
    rw [hreturned]
    rw [hsettled, List.mem_append, List.mem_singleton] at he
    rcases he with he | rfl
    · exact h.settled_item e he
    · exact (h.pending_item t n hpending).trans hcarries
  · intro u m hm
    by_cases hu : u = t
    · rw [hu, hdone] at hm
      cases hm
    · rw [hreturned]
      rw [hpc u hu] at hm ⊢
      exact h.pending_item u m hm

/-! ## Steps that move an item -/

theorem mem_carried (h : (s.pc t).carries = some x) : x ∈ s.stock (.carried t) := by
  show x ∈ (s.pc t).carries.toList
  rw [h]
  exact List.mem_singleton_self x

theorem Stocked.move {l m : Place} (h : s.Stocked) (hlm : l ≠ m) (hl : (s.stock l).Perm (x :: s'.stock l))
    (hm : (s'.stock m).Perm (x :: s.stock m)) (hother : ∀ k, k ≠ l → k ≠ m → s'.stock k = s.stock k)
    (hexisting : s'.existing = s.existing) : s'.Stocked where
  exclusive := h.exclusive.move hlm hl hm hother
  live := by
    intro k y hy
    rw [hexisting]
    by_cases hkm : k = m
    · subst hkm
      rcases List.mem_cons.mp (hm.subset hy) with rfl | hin
      · exact h.live l y (hl.symm.subset (List.mem_cons_self ..))
      · exact h.live k y hin
    · by_cases hkl : k = l
      · subst hkl
        exact h.live k y (hl.symm.subset (List.mem_cons_of_mem x hy))
      · exact h.live k y (hother k hkl hkm ▸ hy)

theorem Stocked.destroy [DecidableEq ι] {l : Place} (h : s.Stocked) (hl : (s.stock l).Perm (x :: s'.stock l))
    (hother : ∀ k, k ≠ l → s'.stock k = s.stock k)
    (hexisting : s'.existing = Function.update s.existing x false) : s'.Stocked where
  exclusive := h.exclusive.remove hl hother
  live := by
    intro k y hy
    have hne : y ≠ x := by
      rintro rfl
      exact h.exclusive.leaves hl hother k hy
    rw [hexisting, Function.update_of_ne hne]
    by_cases hkl : k = l
    · subst hkl
      exact h.live k y (hl.symm.subset (List.mem_cons_of_mem x hy))
    · exact h.live k y (hother k hkl ▸ hy)

theorem Stocked.construct [DecidableEq ι] {m : Place} (h : s.Stocked) (hfresh : s.existing x = false)
    (hm : (s'.stock m).Perm (x :: s.stock m)) (hother : ∀ k, k ≠ m → s'.stock k = s.stock k)
    (hexisting : s'.existing = Function.update s.existing x true) : s'.Stocked where
  exclusive := by
    refine h.exclusive.insert (fun k hk => ?_) hm hother
    rw [h.live k x hk] at hfresh
    cases hfresh
  live := by
    intro k y hy
    have hold : y ∈ s.stock k → s'.existing y = true := by
      intro hin
      rw [hexisting]
      by_cases hyx : y = x
      · rw [hyx, Function.update_self]
      · rw [Function.update_of_ne hyx]
        exact h.live k y hin
    by_cases hkm : k = m
    · subst hkm
      rcases List.mem_cons.mp (hm.subset hy) with rfl | hin
      · rw [hexisting, Function.update_self]
      · exact hold hin
    · exact hold (hother k hkm ▸ hy)

theorem pool_eq (h : s.Guards len) : ∃ q, s.puffer.Holds len q ∧ s.puffer.contents = q := by
  obtain ⟨q, hq⟩ := h.holds
  exact ⟨q, hq, hq.contents_eq⟩

/-- What thread `u` knows does not depend on the cleanness of an item at another place. -/
theorem Owned.knows_of_clean (h : s.Owned len) {clean' : ι → Bool}
    (hsame : ∀ y, y ≠ x → s.clean y = true → clean' y = true) {p : Place} (hx : x ∈ s.stock p) {u : Nat}
    (hu : p ≠ .carried u) : (s.pc u).Knows s.puffer clean' := by
  refine (h.guards.knows u).of_clean fun y hy => hsame y ?_
  rintro rfl
  exact hu (h.stocked.exclusive.apart _ _ _ hx (mem_carried hy))

section Moves

variable [DecidableEq ι]

theorem update_clean {clean : ι → Bool} {b : Bool} (y : ι) (hne : y ≠ x) (hy : clean y = true) :
    Function.update clean x b y = true := by
  rw [Function.update_of_ne hne]
  exact hy

/-- A held item is given back. -/
theorem Owned.receive (h : s.Owned len) (hidle : s.pc t = .idle) (hx : x ∈ s.held t) :
    ({ s.setPc t (.receiverLock x s.returned.length) with
        held := Function.update s.held t ((s.held t).erase x)
        clean := Function.update s.clean x false
        returned := s.returned ++ [x] } : Recycler ι).Owned len := by
  have hpc : ∀ u, u ≠ t → Function.update s.pc t (.receiverLock x s.returned.length) u = s.pc u :=
    fun u hu => Function.update_of_ne hu _ _
  have hat : Function.update s.pc t (.receiverLock x s.returned.length) t =
      .receiverLock x s.returned.length := Function.update_self ..
  have hheld : ∀ u, u ≠ t → Function.update s.held t ((s.held t).erase x) u = s.held u :=
    fun u hu => Function.update_of_ne hu _ _
  have hplace : x ∈ s.stock (.held t) := hx
  refine ⟨?_, ?_, ?_⟩
  · refine h.stocked.move (l := .held t) (m := .carried t) (x := x) ?_ ?_ ?_ (fun k hk hk' => ?_) rfl
    · exact fun he => Place.noConfusion he
    · show (s.held t).Perm (x :: Function.update s.held t ((s.held t).erase x) t)
      rw [Function.update_self]
      exact List.perm_cons_erase hx
    · show (Pc.carries (Function.update s.pc t _ t)).toList.Perm (x :: (s.pc t).carries.toList)
      rw [hat, hidle]
      exact List.Perm.refl [x]
    · exact stock_eq hpc hheld (fun _ => rfl) (fun he => absurd he hk) (fun he => absurd he hk')
  · exact h.accounted.open_call hpc (by rw [hidle]; rfl) (congrArg Pc.pending hat) (congrArg Pc.carries hat)
      rfl rfl
  · refine ⟨h.guards.holds, fun u hu => ?_, fun y hy => ?_, fun u => ?_⟩
    · by_cases hut : u = t
      · subst hut
        have hnot : (Pc.receiverLock x s.returned.length).critical = true := hat ▸ hu
        cases hnot
      · exact h.guards.locked u (hpc u hut ▸ hu)
    · refine update_clean y ?_ (h.guards.clean y hy)
      rintro rfl
      exact Place.noConfusion (h.stocked.exclusive.apart .pool _ y hy hplace)
    · by_cases hut : u = t
      · subst hut
        show (Function.update s.pc u _ u).Knows _ _
        rw [hat]
        trivial
      · show (Function.update s.pc t _ u).Knows _ _
        rw [hpc u hut]
        exact h.knows_of_clean update_clean hplace fun he => Place.noConfusion he

/-- The callers' items after `t` has handed one to `u`. -/
def passed (held : Nat → List ι) (t u : Nat) (x : ι) : Nat → List ι :=
  Function.update (Function.update held t ((held t).erase x)) u
    (x :: Function.update held t ((held t).erase x) u)

/-- A held item goes to another caller. -/
theorem Owned.pass (h : s.Owned len) (hx : x ∈ s.held t) (u : Nat) :
    ({ s with held := passed s.held t u x } : Recycler ι).Owned len := by
  refine ⟨?_, h.accounted.congr (t := t) (fun _ _ => rfl) rfl rfl rfl fun _ => rfl,
    ⟨h.guards.holds, h.guards.locked, h.guards.clean, h.guards.knows⟩⟩
  by_cases hut : u = t
  · subst hut
    have hsame : ∀ k, (({ s with held := passed s.held u u x } : Recycler ι).stock k).Perm (s.stock k) := by
      intro k
      cases k with
      | pool => exact List.Perm.refl _
      | carried v => exact List.Perm.refl _
      | held v =>
        show (passed s.held u u x v).Perm (s.held v)
        by_cases hv : v = u
        · subst hv
          rw [passed, Function.update_self, Function.update_self]
          exact (List.perm_cons_erase hx).symm
        · rw [passed, Function.update_of_ne hv, Function.update_of_ne hv]
    exact ⟨h.stocked.exclusive.perm hsame, fun k y hy => h.stocked.live k y ((hsame k).subset hy)⟩
  · refine h.stocked.move (l := .held t) (m := .held u) (x := x) ?_ ?_ ?_ (fun k hk hk' => ?_) rfl
    · exact fun he => hut (Place.held.inj he).symm
    · show (s.held t).Perm (x :: passed s.held t u x t)
      rw [passed, Function.update_of_ne (Ne.symm hut), Function.update_self]
      exact List.perm_cons_erase hx
    · show (passed s.held t u x u).Perm (x :: s.held u)
      rw [passed, Function.update_self, Function.update_of_ne hut]
    · cases k with
      | pool => rfl
      | carried v => rfl
      | held v =>
        have hvt : v ≠ t := fun he => hk (by rw [he])
        have hvu : v ≠ u := fun he => hk' (by rw [he])
        show passed s.held t u x v = s.held v
        rw [passed, Function.update_of_ne hvu, Function.update_of_ne hvt]

/-- The full branch destroys the item. -/
theorem Owned.dtor {n : Nat} (h : s.Owned len) (hpc : s.pc t = .receiverDtor x n) :
    s.existing x = true ∧
      ({ s.setPc t .idle with
          existing := Function.update s.existing x false
          settled := s.settled ++ [⟨n, x, .destroyed⟩] } : Recycler ι).Owned len := by
  have hcarries : (s.pc t).carries = some x := by rw [hpc]; rfl
  have hother : ∀ u, u ≠ t → Function.update s.pc t .idle u = s.pc u := fun u hu => Function.update_of_ne hu _ _
  have hat : Function.update s.pc t .idle t = .idle := Function.update_self ..
  refine ⟨h.stocked.live _ x (mem_carried hcarries), ?_, ?_, ?_⟩
  · refine h.stocked.destroy (l := .carried t) (x := x) ?_ (fun k hk => ?_) rfl
    · show (s.pc t).carries.toList.Perm (x :: (Pc.carries (Function.update s.pc t _ t)).toList)
      rw [hat, hcarries]
      exact List.Perm.refl [x]
    · exact stock_eq hother (fun _ _ => by rfl) (fun _ => rfl) (fun _ => rfl) (fun he => absurd he hk)
  · exact h.accounted.settle hother (by rw [hpc]; rfl) hcarries (congrArg Pc.pending hat) .destroyed rfl rfl
  · refine h.guards.congr hother rfl rfl (fun u _ => h.guards.locked u) ?_ ?_
    · intro hc
      have hnot : (Pc.idle : Pc ι).critical = true := hat ▸ hc
      cases hnot
    · show (Function.update s.pc t .idle t).Knows _ _
      rw [hat]
      trivial

/-- The item is cleaned before it is pooled. -/
theorem Owned.clean {n : Nat} (h : s.Owned len) (hpc : s.pc t = .receiverClean x n) :
    s.existing x = true ∧
      ({ s.setPc t (.receiverWrite x n) with clean := Function.update s.clean x true } :
        Recycler ι).Owned len := by
  have hcarries : (s.pc t).carries = some x := by rw [hpc]; rfl
  have hother : ∀ u, u ≠ t → Function.update s.pc t (.receiverWrite x n) u = s.pc u :=
    fun u hu => Function.update_of_ne hu _ _
  have hat : Function.update s.pc t (.receiverWrite x n) t = .receiverWrite x n := Function.update_self ..
  have hgrows : ∀ y, s.clean y = true → Function.update s.clean x true y = true := by
    intro y hy
    by_cases hyx : y = x
    · rw [hyx, Function.update_self]
    · exact update_clean y hyx hy
  have hknows := h.guards.knows t
  rw [hpc] at hknows
  refine ⟨h.stocked.live _ x (mem_carried hcarries), ?_, ?_, ?_⟩
  · refine h.stocked.congr (fun k => ?_) rfl
    refine stock_eq hother (fun _ _ => by rfl) (fun _ => rfl) (fun _ => rfl) fun _ => ?_
    exact (congrArg Pc.carries hat).trans hcarries.symm
  · refine h.accounted.congr hother rfl rfl ?_ fun _ => (congrArg Pc.carries hat).trans hcarries.symm
    show Pc.pending (Function.update s.pc t _ t) = _
    rw [hat, hpc]
    rfl
  · refine ⟨h.guards.holds, fun u hu => ?_, fun y hy => hgrows y (h.guards.clean y hy), fun u => ?_⟩
    · by_cases hut : u = t
      · subst hut
        exact h.guards.locked u (by rw [hpc]; rfl)
      · exact h.guards.locked u (hother u hut ▸ hu)
    · show (Function.update s.pc t _ u).Knows _ _
      by_cases hut : u = t
      · subst hut
        rw [hat]
        exact ⟨hknows, Function.update_self ..⟩
      · rw [hother u hut]
        exact (h.guards.knows u).of_clean fun y _ => hgrows y

/-- A new item goes to its caller. -/
theorem Owned.ctor (h : s.Owned len) (hpc : s.pc t = .supplierCtor) (hfresh : s.existing x = false) :
    ({ s.setPc t .idle with
        existing := Function.update s.existing x true
        held := Function.update s.held t (x :: s.held t) } : Recycler ι).Owned len := by
  have hother : ∀ u, u ≠ t → Function.update s.pc t .idle u = s.pc u := fun u hu => Function.update_of_ne hu _ _
  have hheld : ∀ u, u ≠ t → Function.update s.held t (x :: s.held t) u = s.held u :=
    fun u hu => Function.update_of_ne hu _ _
  have hat : Function.update s.pc t .idle t = .idle := Function.update_self ..
  refine ⟨?_, ?_, ?_⟩
  · refine h.stocked.construct (m := .held t) hfresh ?_ (fun k hk => ?_) rfl
    · show (Function.update s.held t (x :: s.held t) t).Perm _
      rw [Function.update_self]
      exact List.Perm.refl _
    · refine stock_eq hother hheld (fun _ => rfl) (fun he => absurd he hk) fun _ => ?_
      show Pc.carries (Function.update s.pc t _ t) = _
      rw [hat, hpc]
      rfl
  · refine h.accounted.congr hother rfl rfl ?_ fun hp => absurd (congrArg Pc.pending hat) hp
    show Pc.pending (Function.update s.pc t _ t) = _
    rw [hat, hpc]
    rfl
  · refine h.guards.congr hother rfl rfl (fun u _ => h.guards.locked u) ?_ ?_
    · intro hc
      have hnot : (Pc.idle : Pc ι).critical = true := hat ▸ hc
      cases hnot
    · show (Function.update s.pc t .idle t).Knows _ _
      rw [hat]
      trivial

end Moves

/-- The item is pooled. -/
theorem Owned.write {n : Nat} (h : s.Owned len) (hpc : s.pc t = .receiverWrite x n) :
    ({ s.setPc t .receiverUnlock with
        puffer := datapufferWrite s.puffer x
        settled := s.settled ++ [⟨n, x, .pooled⟩] } : Recycler ι).Owned len := by
  have hcarries : (s.pc t).carries = some x := by rw [hpc]; rfl
  have hcritical : (s.pc t).critical = true := by rw [hpc]; rfl
  have hother : ∀ u, u ≠ t → Function.update s.pc t .receiverUnlock u = s.pc u :=
    fun u hu => Function.update_of_ne hu _ _
  have hat : Function.update s.pc t .receiverUnlock t = .receiverUnlock := Function.update_self ..
  have hknows := h.guards.knows t
  rw [hpc] at hknows
  obtain ⟨hroom, hclean⟩ := hknows
  obtain ⟨q, hq, hcontents⟩ := pool_eq h.guards
  have hlt : q.length < len := by
    refine Nat.lt_of_le_of_ne hq.fits fun he => ?_
    rw [hq.isfull_iff.mpr he] at hroom
    cases hroom
  have hwrite := hq.write hlt x
  refine ⟨?_, ?_, ?_⟩
  · refine h.stocked.move (l := .carried t) (m := .pool) (x := x) ?_ ?_ ?_ (fun k hk hk' => ?_) rfl
    · exact fun he => Place.noConfusion he
    · show (s.pc t).carries.toList.Perm (x :: (Pc.carries (Function.update s.pc t _ t)).toList)
      rw [hat, hcarries]
      exact List.Perm.refl [x]
    · show (datapufferWrite s.puffer x).contents.Perm (x :: s.puffer.contents)
      rw [hwrite.contents_eq, hcontents]
      exact List.perm_append_singleton x q
    · exact stock_eq hother (fun _ _ => by rfl) (fun he => absurd he hk') (fun _ => rfl) (fun he => absurd he hk)
  · exact h.accounted.settle hother (by rw [hpc]; rfl) hcarries (congrArg Pc.pending hat) .pooled rfl rfl
  · refine ⟨⟨_, hwrite⟩, fun u hu => ?_, fun y hy => ?_, fun u => ?_⟩
    · by_cases hut : u = t
      · subst hut
        exact h.guards.locked u hcritical
      · exact h.guards.locked u (hother u hut ▸ hu)
    · have hy' : y ∈ (datapufferWrite s.puffer x).contents := hy
      rw [hwrite.contents_eq, List.mem_append, List.mem_singleton] at hy'
      rcases hy' with hin | rfl
      · exact h.guards.clean y (hcontents.symm ▸ hin)
      · exact hclean
    · show (Function.update s.pc t _ u).Knows _ _
      by_cases hut : u = t
      · subst hut
        rw [hat]
        trivial
      · rw [hother u hut]
        exact Pc.knows_of_not_critical (h.guards.alone hcritical hut) _ _

/-- The oldest item leaves the pool. -/
theorem Owned.read (h : s.Owned len) (hpc : s.pc t = .supplierRead) :
    ({ s.setPc t (.supplierUnlock (datapufferRead s.puffer).2) with
        puffer := (datapufferRead s.puffer).1 } : Recycler ι).Owned len := by
  have hcritical : (s.pc t).critical = true := by rw [hpc]; rfl
  have hknows := h.guards.knows t
  rw [hpc] at hknows
  obtain ⟨q, hq, hcontents⟩ := pool_eq h.guards
  obtain ⟨x, q, rfl⟩ : ∃ x q', q = x :: q' := by
    cases q with
    | nil =>
      have hempty := hq.isempty_iff.mpr rfl
      rw [hknows] at hempty
      cases hempty
    | cons x q => exact ⟨x, q, rfl⟩
  have hread := hq.read
  have hresult := hq.read_result
  have hclean : s.clean x = true := by
    apply h.guards.clean
    rw [hcontents]
    exact List.mem_cons_self ..
  rw [hresult]
  have hother : ∀ u, u ≠ t → Function.update s.pc t (.supplierUnlock (some x)) u = s.pc u :=
    fun u hu => Function.update_of_ne hu _ _
  have hat : Function.update s.pc t (.supplierUnlock (some x)) t = .supplierUnlock (some x) :=
    Function.update_self ..
  refine ⟨?_, ?_, ?_⟩
  · refine h.stocked.move (l := .pool) (m := .carried t) (x := x) ?_ ?_ ?_ (fun k hk hk' => ?_) rfl
    · exact fun he => Place.noConfusion he
    · show s.puffer.contents.Perm (x :: (datapufferRead s.puffer).1.contents)
      rw [hcontents, hread.contents_eq]
    · show (Pc.carries (Function.update s.pc t _ t)).toList.Perm (x :: (s.pc t).carries.toList)
      rw [hat, hpc]
      exact List.Perm.refl [x]
    · exact stock_eq hother (fun _ _ => by rfl) (fun he => absurd he hk) (fun _ => rfl) (fun he => absurd he hk')
  · refine h.accounted.congr hother rfl rfl ?_ fun hp => absurd (congrArg Pc.pending hat) hp
    show Pc.pending (Function.update s.pc t _ t) = _
    rw [hat, hpc]
    rfl
  · refine ⟨⟨q, hread⟩, fun u hu => ?_, fun y hy => ?_, fun u => ?_⟩
    · by_cases hut : u = t
      · subst hut
        exact h.guards.locked u hcritical
      · exact h.guards.locked u (hother u hut ▸ hu)
    · have hy' : y ∈ (datapufferRead s.puffer).1.contents := hy
      rw [hread.contents_eq] at hy'
      exact h.guards.clean y (hcontents.symm ▸ List.mem_cons_of_mem x hy')
    · show (Function.update s.pc t _ u).Knows _ _
      by_cases hut : u = t
      · subst hut
        rw [hat]
        exact ⟨x, rfl, hclean⟩
      · rw [hother u hut]
        exact Pc.knows_of_not_critical (h.guards.alone hcritical hut) _ _

/-- The item from the pool goes to its caller. -/
theorem Owned.hand_out (h : s.Owned len) (hpc : s.pc t = .supplierUnlock (some x)) :
    ({ s.setPc t .idle with
        spin := none
        held := Function.update s.held t (x :: s.held t) } : Recycler ι).Owned len := by
  have hcarries : (s.pc t).carries = some x := by rw [hpc]; rfl
  have hcritical : (s.pc t).critical = true := by rw [hpc]; rfl
  have hother : ∀ u, u ≠ t → Function.update s.pc t .idle u = s.pc u := fun u hu => Function.update_of_ne hu _ _
  have hheld : ∀ u, u ≠ t → Function.update s.held t (x :: s.held t) u = s.held u :=
    fun u hu => Function.update_of_ne hu _ _
  have hat : Function.update s.pc t .idle t = .idle := Function.update_self ..
  refine ⟨?_, ?_, ?_⟩
  · refine h.stocked.move (l := .carried t) (m := .held t) (x := x) ?_ ?_ ?_ (fun k hk hk' => ?_) rfl
    · exact fun he => Place.noConfusion he
    · show (s.pc t).carries.toList.Perm (x :: (Pc.carries (Function.update s.pc t _ t)).toList)
      rw [hat, hcarries]
      exact List.Perm.refl [x]
    · show (Function.update s.held t (x :: s.held t) t).Perm _
      rw [Function.update_self]
      exact List.Perm.refl _
    · exact stock_eq hother hheld (fun _ => rfl) (fun he => absurd he hk') (fun he => absurd he hk)
  · refine h.accounted.congr hother rfl rfl ?_ fun hp => absurd (congrArg Pc.pending hat) hp
    show Pc.pending (Function.update s.pc t _ t) = _
    rw [hat, hpc]
    rfl
  · refine h.guards.congr hother rfl rfl (fun u hu hc => absurd hc (h.guards.alone hcritical hu)) ?_ ?_
    · intro hc
      have hnot : (Pc.idle : Pc ι).critical = true := hat ▸ hc
      cases hnot
    · show (Function.update s.pc t .idle t).Knows _ _
      rw [hat]
      trivial

/-! ## Runs -/

theorem owned_init (hlen : 0 < len) : (initRecycler len : Recycler ι).Owned len := by
  have hholds : (datapufferCtor len : Datapuffer ι).Holds len [] := Datapuffer.holds_ctor hlen
  have hstock : ∀ k, (initRecycler len : Recycler ι).stock k = [] := by
    intro k
    cases k with
    | pool => exact hholds.contents_eq
    | held t => rfl
    | carried t => rfl
  have hcalls : ∀ k, (initRecycler len : Recycler ι).calls k = [] := by
    intro k
    cases k with
    | settled => rfl
    | pending t => rfl
  refine ⟨⟨exclusive_nil.perm fun k => by rw [hstock k], fun k x hx => ?_⟩,
    ⟨exclusive_nil.perm fun k => by rw [hcalls k], fun k n hn => ?_, fun n hn => ?_, fun e he => ?_,
      fun t n hn => ?_⟩,
    ⟨⟨[], hholds⟩, fun t ht => ?_, fun x hx => ?_, fun t => trivial⟩⟩
  · rw [hstock k] at hx
    cases hx
  · rw [hcalls k] at hn
    cases hn
  · exact absurd hn (Nat.not_lt_zero n)
  · cases he
  · cases hn
  · cases ht
  · rw [show (initRecycler len : Recycler ι).puffer.contents = [] from hholds.contents_eq] at hx
    cases hx

/-- Every statement of a thread that can run. -/
theorem Owned.advance [DecidableEq ι] (h : s.Owned len) {fresh : ι} (hruns : s.runs fresh (s.pc t) = true) :
    ∃ s', s.advance t fresh = some s' ∧ s'.Owned len := by
  cases hpc : s.pc t with
  | idle =>
    rw [hpc] at hruns
    cases hruns
  | receiverLock item call =>
    rw [hpc] at hruns
    refine ⟨_, by rw [Recycler.advance, hpc], ?_⟩
    apply h.enter (Option.isNone_iff_eq_none.mp hruns)
    · rw [hpc]; rfl
    · rw [hpc]; rfl
    · trivial
  | receiverTest item call =>
    refine ⟨_, by rw [Recycler.advance, hpc], ?_⟩
    cases hfull : datapufferIsfull s.puffer with
    | true =>
      apply h.within (by rw [hpc]; rfl) (.receiverFull item call)
      · rw [hpc]; rfl
      · rw [hpc]; rfl
      · trivial
    | false =>
      apply h.within (by rw [hpc]; rfl) (.receiverClean item call)
      · rw [hpc]; rfl
      · rw [hpc]; rfl
      · exact hfull
  | receiverFull item call =>
    refine ⟨_, by rw [Recycler.advance, hpc], ?_⟩
    apply h.leave (by rw [hpc]; rfl) (.receiverDtor item call) Bool.false_ne_true
    · rw [hpc]; rfl
    · rw [hpc]; rfl
  | receiverDtor item call =>
    obtain ⟨hexists, howned⟩ := h.dtor hpc
    refine ⟨_, ?_, howned⟩
    rw [Recycler.advance, hpc]
    exact if_pos hexists
  | receiverClean item call =>
    obtain ⟨hexists, howned⟩ := h.clean hpc
    refine ⟨_, ?_, howned⟩
    rw [Recycler.advance, hpc]
    exact if_pos hexists
  | receiverWrite item call => exact ⟨_, by rw [Recycler.advance, hpc], h.write hpc⟩
  | receiverUnlock =>
    refine ⟨_, by rw [Recycler.advance, hpc], ?_⟩
    apply h.leave (by rw [hpc]; rfl) .idle Bool.false_ne_true
    · rw [hpc]; rfl
    · rw [hpc]; rfl
  | supplierLock =>
    rw [hpc] at hruns
    refine ⟨_, by rw [Recycler.advance, hpc], ?_⟩
    apply h.enter (Option.isNone_iff_eq_none.mp hruns)
    · rw [hpc]; rfl
    · rw [hpc]; rfl
    · trivial
  | supplierTest =>
    refine ⟨_, by rw [Recycler.advance, hpc], ?_⟩
    cases hempty : datapufferIsempty s.puffer with
    | true =>
      apply h.within (by rw [hpc]; rfl) .supplierEmpty
      · rw [hpc]; rfl
      · rw [hpc]; rfl
      · trivial
    | false =>
      apply h.within (by rw [hpc]; rfl) .supplierRead
      · rw [hpc]; rfl
      · rw [hpc]; rfl
      · exact hempty
  | supplierEmpty =>
    refine ⟨_, by rw [Recycler.advance, hpc], ?_⟩
    apply h.leave (by rw [hpc]; rfl) .supplierCtor Bool.false_ne_true
    · rw [hpc]; rfl
    · rw [hpc]; rfl
  | supplierCtor =>
    rw [hpc] at hruns
    exact ⟨_, by rw [Recycler.advance, hpc], h.ctor hpc ((Bool.not_eq_true' _).mp hruns)⟩
  | supplierRead => exact ⟨_, by rw [Recycler.advance, hpc], h.read hpc⟩
  | supplierUnlock result =>
    have hknows := h.guards.knows t
    rw [hpc] at hknows
    obtain ⟨item, rfl, -⟩ := hknows
    exact ⟨_, by rw [Recycler.advance, hpc]; rfl, h.hand_out hpc⟩

end Recycler

open Recycler

variable {len : Nat}

/-- What a recycle puffer promises about a state. -/
structure NeverShared (len : Nat) (s : Recycler ι) : Prop where
  held_once : ∀ t u x, x ∈ s.held t → x ∈ s.held u → t = u
  held_nodup : ∀ t, (s.held t).Nodup
  held_not_pooled : ∀ t x, x ∈ s.held t → x ∉ s.puffer.contents
  pooled_once : s.puffer.contents.Nodup
  bounded : s.puffer.contents.length ≤ len
  pooled_clean : ∀ x ∈ s.puffer.contents, s.clean x = true
  handed_clean : ∀ t result, s.pc t = .supplierUnlock result → ∃ x, result = some x ∧ s.clean x = true
  settled_once : (s.settled.map Settled.call).Nodup
  settled_item : ∀ e ∈ s.settled, s.returned[e.call]? = some e.item
  settled_or_pending : ∀ n < s.returned.length,
    Xor (n ∈ s.settled.map Settled.call) (∃ t, (s.pc t).pending = some n)

theorem Recycler.Owned.neverShared {s : Recycler ι} (h : s.Owned len) : NeverShared len s := by
  have hitems := h.stocked.exclusive
  have hcalls := h.accounted.exclusive
  obtain ⟨q, hq, hcontents⟩ := pool_eq h.guards
  have hpending : ∀ t n, (s.pc t).pending = some n → n ∈ s.calls (.pending t) := by
    intro t n hn
    show n ∈ (s.pc t).pending.toList
    rw [hn]
    exact List.mem_singleton_self n
  constructor
  · intro t u x ht hu
    exact Place.held.inj (hitems.apart (.held t) (.held u) x ht hu)
  · exact fun t => hitems.nodup (.held t)
  · intro t x hx hpool
    exact Place.noConfusion (hitems.apart (.held t) .pool x hx hpool)
  · exact hitems.nodup .pool
  · rw [hcontents]
    exact hq.fits
  · exact h.guards.clean
  · intro t result hpc
    have hknows := h.guards.knows t
    rw [hpc] at hknows
    exact hknows
  · exact hcalls.nodup .settled
  · exact h.accounted.settled_item
  · intro n hn
    obtain ⟨p, hp⟩ := h.accounted.complete n hn
    cases p with
    | settled =>
      refine Or.inl ⟨hp, fun hpend => ?_⟩
      obtain ⟨t, ht⟩ := hpend
      exact CallPlace.noConfusion (hcalls.apart .settled (.pending t) n hp (hpending t n ht))
    | pending t =>
      refine Or.inr ⟨⟨t, Option.mem_toList.mp hp⟩, fun hset => ?_⟩
      exact CallPlace.noConfusion (hcalls.apart .settled (.pending t) n hset hp)

variable [DecidableEq ι]

theorem recycleStep_owned (s : Recycler ι) (act : Act ι) (h : s.Owned len) (hact : Enabled s act) :
    ∃ s' u, recycleStep s act = some (s', u) ∧ s'.Owned len := by
  cases act with
  | receive t item =>
    obtain ⟨hidle, hheld⟩ := hact
    exact ⟨_, (), rfl, h.receive hidle hheld⟩
  | supply t =>
    have hidle : s.pc t = .idle := hact
    refine ⟨_, (), rfl, ?_⟩
    apply h.quiet .supplierLock s.spin
    · rw [hidle]; rfl
    · rw [hidle]; rfl
    · exact fun u _ hc => h.guards.locked u hc
    · exact fun hc => absurd hc Bool.false_ne_true
    · trivial
  | pass t u item => exact ⟨_, (), rfl, h.pass hact u⟩
  | advance t fresh =>
    obtain ⟨s', hstep, howned⟩ := h.advance hact
    exact ⟨s', (), by rw [recycleStep, hstep]; rfl, howned⟩

end Devclego.Puffers

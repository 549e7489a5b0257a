import HM4.AVLList

/-!
# Nodes keep their addresses

Links and balances change, nodes appear and disappear, but no operation moves a
node. So what holds of the addresses that the allocator hands out holds of every
node of the list.
-/

namespace HM4.AVLList

open Bytes Pairs PairFactory MemList LinkedTree

/-- Every node of the second heap was in the first, at the same address. -/
def Kept (s s' : Links Item) : Prop :=
  ∀ i n', s'.heap i = some n' → ∃ n, s.heap i = some n ∧ n.val.addr = n'.val.addr

theorem Kept.refl (s : Links Item) : Kept s s := fun _ n' h => ⟨n', h, rfl⟩

theorem Kept.trans {s1 s2 s3 : Links Item} (h : Kept s1 s2) (h' : Kept s2 s3) : Kept s1 s3 := by
  intro i n3 h3
  obtain ⟨n2, h2, e2⟩ := h' i n3 h3
  obtain ⟨n1, h1, e1⟩ := h i n2 h2
  exact ⟨n1, h1, e1.trans e2⟩

section Keeps

variable {β γ : Type} {π : β → Links Item} {s : Links Item}

/-- A computation that ends leaves links that have kept their addresses. -/
def Keeps (π : β → Links Item) (s : Links Item) (x : Option β) : Prop :=
  ∀ y, x = some y → Kept s (π y)

theorem Keeps.pure {y : β} (h : Kept s (π y)) : Keeps π s (some y) := by
  intro z hz
  rwa [← Option.some.inj hz]

theorem Keeps.same {s' : Links Item} (h : Kept s s') : Keeps id s (some s') := Keeps.pure h

/-- What is only looked up does not matter. -/
theorem Keeps.look {x : Option γ} {f : γ → Option β} (h : ∀ a, Keeps π s (f a)) :
    Keeps π s (x >>= f) := by
  intro y hy
  obtain ⟨a, -, ha⟩ := Option.bind_eq_some_iff.mp hy
  exact h a y ha

/-- One computation after another. -/
theorem Keeps.bind {ρ : γ → Links Item} {x : Option γ} {f : γ → Option β} (hx : Keeps ρ s x)
    (hf : ∀ a, Keeps π (ρ a) (f a)) : Keeps π s (x >>= f) := by
  intro y hy
  obtain ⟨a, hxa, ha⟩ := Option.bind_eq_some_iff.mp hy
  exact (hx a hxa).trans (hf a y ha)

theorem Keeps.ite {c : Prop} [Decidable c] {x y : Option β} (hx : Keeps π s x)
    (hy : Keeps π s y) : Keeps π s (if c then x else y) := by
  split
  · exact hx
  · exact hy

end Keeps

section Links

variable (s : Links Item)

theorem write_keeps (x : Option ℕ) {f : Node Item → Node Item}
    (hf : ∀ n, (f n).val.addr = n.val.addr) : Keeps id s (s.write x f) := by
  intro s' h
  cases x with
  | none => exact absurd h (Option.some_ne_none _).symm
  | some j =>
    cases hj : s.heap j with
    | none =>
      simp only [LinkedTree.Links.write, hj] at h
      exact absurd h (Option.some_ne_none _).symm
    | some n =>
      simp only [LinkedTree.Links.write, hj] at h
      rw [← Option.some.inj h]
      intro i n' hi
      by_cases hij : i = j
      · subst hij
        have hn' : f n = n' := by simpa using hi
        exact ⟨n, hj, by rw [← hn', hf]⟩
      · exact ⟨n', by simpa [Function.update_of_ne hij] using hi, rfl⟩

theorem setChild_addr (d : Dir) (x : Option ℕ) (n : Node Item) :
    (n.setChild d x).val.addr = n.val.addr := by
  cases d <;> rfl

theorem setParent_keeps (child x : Option ℕ) : Keeps id s (s.setParent child x) := by
  cases child with
  | none => exact .same (.refl s)
  | some i => exact write_keeps s (some i) fun _ => rfl

theorem replaceChild_keeps (parent : Option ℕ) (original node : ℕ) :
    Keeps id s (s.replaceChild parent original node) := by
  cases parent with
  | none => exact .same fun i n' h => ⟨n', h, rfl⟩
  | some p =>
    refine write_keeps s (some p) fun n => ?_
    split
    · exact setChild_addr _ _ n
    · exact setChild_addr _ _ n

theorem setBalance_keeps (x : Option ℕ) (balance : ℤ) : Keeps id s (setBalance s x balance) :=
  write_keeps s x fun _ => rfl

theorem incBalance_keeps (x : Option ℕ) : Keeps id s (incBalance s x) :=
  .look fun _ => setBalance_keeps s x _

theorem decBalance_keeps (x : Option ℕ) : Keeps id s (decBalance s x) :=
  .look fun _ => setBalance_keeps s x _

theorem writeChild_keeps (x : Option ℕ) (d : Dir) (y : Option ℕ) :
    Keeps id s (s.write x fun n => n.setChild d y) :=
  write_keeps s x fun n => setChild_addr d y n

theorem fixParentAndChildren_keeps (fixP fixL fixR : Bool) (node originalParent : ℕ) :
    Keeps id s (fixParentAndChildren fixP fixL fixR s node originalParent) := by
  refine .look fun n => ?_
  have hR : ∀ s, Keeps id s (if fixR = true then s.setParent n.r (some node) else some s) :=
    fun s => .ite (setParent_keeps s n.r _) (.same (.refl s))
  have hL := fun s : Links Item =>
    Keeps.ite (c := fixL = true) (.bind (setParent_keeps s n.l (some node)) hR)
      (.bind (.same (.refl s)) hR)
  exact .ite (.bind (replaceChild_keeps s n.p originalParent node) hL)
    (.bind (.same (.refl s)) hL)

theorem rotate_keeps (d : Dir) (n : ℕ) : Keeps id s (rotate d s n) :=
  .look fun _ => .look fun _ => .look fun _ =>
    .bind (writeChild_keeps s _ _ _) fun s =>
    .bind (setParent_keeps s _ _) fun s =>
    .bind (writeChild_keeps s _ _ _) fun s =>
    .bind (write_keeps s _ fun _ => rfl) fun s =>
    fixParentAndChildren_keeps s _ _ _ _ _

theorem rotateTwice_keeps (d : Dir) (n : ℕ) : Keeps id s (rotateTwice d s n) :=
  .look fun _ => .look fun c =>
    .bind (rotate_keeps s d.flip c) fun s => rotate_keeps s d n

theorem swapWords_keeps (a b : ℕ) : Keeps id s (swapWords s a b) :=
  .look fun _ => .look fun _ =>
    .bind (write_keeps s _ fun _ => rfl) fun s => write_keeps s _ fun _ => rfl

theorem swapLinksRelative_keeps (a b : ℕ) : Keeps id s (swapLinksRelative s a b) :=
  .bind (swapWords_keeps s a b) fun s =>
  .bind (fixParentAndChildren_keeps s _ _ _ _ _) fun s =>
  .bind (fixParentAndChildren_keeps s _ _ _ _ _) fun s =>
  .bind (write_keeps s _ fun _ => rfl) fun s =>
  .look fun _ =>
  .ite (.bind (writeChild_keeps s _ _ _) fun s => fixParentAndChildren_keeps s _ _ _ _ _)
    (.bind (fixParentAndChildren_keeps s _ _ _ _ _) fun s => writeChild_keeps s _ _ _)

theorem swapLinksNormal_keeps (a b : ℕ) : Keeps id s (swapLinksNormal s a b) :=
  .bind (swapWords_keeps s a b) fun s =>
  .bind (fixParentAndChildren_keeps s _ _ _ _ _) fun s => fixParentAndChildren_keeps s _ _ _ _ _

theorem swapLinks_keeps (a b : ℕ) : Keeps id s (swapLinks s a b) :=
  .look fun _ => .ite (swapLinksRelative_keeps s a b)
    (.look fun _ => .ite (swapLinksRelative_keeps s b a) (swapLinksNormal_keeps s a b))

theorem copyLinks_keeps (a b : ℕ) : Keeps id s (copyLinks s a b) :=
  .look fun _ =>
  .bind (write_keeps s _ fun _ => rfl) fun s =>
  .bind (fixParentAndChildren_keeps s _ _ _ _ _) fun s => write_keeps s _ fun _ => rfl

theorem rebalanceTwice_keeps (d : Dir) (node : ℕ) : Keeps id s (rebalanceTwice d s node) := by
  refine .look fun n => .look fun g => .look fun gBalance => ?_
  refine .bind (setBalance_keeps s _ 0) fun s => .bind (setBalance_keeps s _ 0) fun s =>
    .bind (setBalance_keeps s _ 0) fun s => ?_
  have hrotate := fun s : Links Item => rotateTwice_keeps s d node
  exact .ite (.bind (setBalance_keeps s _ _) hrotate)
    (.ite (.bind (setBalance_keeps s _ _) hrotate) (.bind (.same (.refl s)) hrotate))

theorem rebalanceHeavyInsert_keeps (d : Dir) (node : ℕ) :
    Keeps id s (rebalanceHeavyInsert d s node) :=
  .look fun _ => .look fun _ =>
  .ite (.bind (setBalance_keeps s _ 0) fun s => .bind (setBalance_keeps s _ 0) fun s =>
    rotate_keeps s d node) (rebalanceTwice_keeps s d node)

theorem rebalanceAfterInsert_keeps (fuel node : ℕ) :
    Keeps id s (rebalanceAfterInsert fuel s node) := by
  induction fuel generalizing s node with
  | zero => exact fun _ h => absurd h (Option.some_ne_none _).symm
  | succ k ih =>
    refine .look fun balance => .ite (.same (.refl s)) (.ite (rebalanceHeavyInsert_keeps s _ _)
      (.ite (rebalanceHeavyInsert_keeps s _ _) (.look fun n => ?_)))
    cases n.p with
    | none => exact .same (.refl s)
    | some parent =>
      exact .look fun _ => .ite (.bind (decBalance_keeps s _) fun s => ih s parent)
        (.bind (incBalance_keeps s _) fun s => ih s parent)

theorem rebalanceHeavyErase_keeps (d : Dir) (node : ℕ) :
    Keeps Prod.fst s (rebalanceHeavyErase d s node) := by
  refine .look fun n => .look fun balance => ?_
  refine .ite ?_ (.ite ?_ ?_)
  · exact .bind (setBalance_keeps s _ 0) fun s => .bind (setBalance_keeps s _ 0) fun s =>
      .bind (rotate_keeps s d node) fun s => .pure (.refl s)
  · exact .bind (setBalance_keeps s _ _) fun s => .bind (setBalance_keeps s _ _) fun s =>
      .bind (rotate_keeps s d node) fun s => .pure (.refl s)
  · exact .bind (rebalanceTwice_keeps s d node) fun s => .pure (.refl s)

theorem rebalanceNodeErase_keeps (node : ℕ) :
    Keeps Prod.fst s (rebalanceNodeErase s node) := by
  have hdone := fun r : Links Item × Bool => Keeps.look (π := Prod.fst)
    (x := r.1.get (some node)) (f := fun n => some (r.1, n.p, r.2))
    fun _ => .pure (.refl r.1)
  refine .look fun balance => .ite ?_ (.ite ?_ (.pure (.refl s)))
  · exact .bind (rebalanceHeavyErase_keeps s _ node) hdone
  · exact .bind (rebalanceHeavyErase_keeps s _ node) hdone

theorem rebalanceAfterErase_keeps (fuel node : ℕ) :
    Keeps id s (rebalanceAfterErase fuel s node) := by
  induction fuel generalizing s node with
  | zero => exact fun _ h => absurd h (Option.some_ne_none _).symm
  | succ k ih =>
    refine .bind (rebalanceNodeErase_keeps s node) fun r => .ite (.same (.refl r.1)) ?_
    refine .look fun n => ?_
    cases n.p with
    | none => exact .same (.refl r.1)
    | some parent =>
      refine .look fun _ => .ite ?_ ?_
      · exact .bind (incBalance_keeps r.1 _) fun s => .look fun _ =>
          .ite (.same (.refl s)) (ih s parent)
      · exact .bind (decBalance_keeps r.1 _) fun s => .look fun _ =>
          .ite (.same (.refl s)) (ih s parent)

end Links

/-! ## The list -/

section List

variable {σ : Type} (allocator : Allocator σ) (list : AVL σ)

theorem deallocate_keeps (node : ℕ) : Keeps AVL.links list.links (deallocate allocator list node) := by
  refine .look fun n => .pure fun i n' hi => ?_
  by_cases hin : i = node
  · subst hin
    simp at hi
  · exact ⟨n', by simpa [Function.update_of_ne hin] using hi, rfl⟩

/-- What both ends of `eraseNode` do: the parent's balance changes, the node goes, and the way up
is corrected. -/
theorem unlink_keeps {s : Links Item} {balanced : Option (Links Item)}
    (hb : Keeps id s balanced) (lc : ListCounter) (node parent : ℕ) (b : ℤ) :
    Keeps AVL.links s (balanced >>= fun s =>
      deallocate allocator { list with links := s, lc := lc } node >>= fun list =>
      getBalance list.links (some parent) >>= fun balance =>
      if balance = b then some list
      else rebalanceAfterErase list.fuel list.links parent >>= fun s =>
        some { list with links := s }) :=
  .bind hb fun s => .bind (deallocate_keeps allocator { list with links := s, lc := lc } node)
    fun list => .look fun _ => .ite (.pure (.refl list.links))
      (.bind (rebalanceAfterErase_keeps list.links _ _) fun s => .pure (.refl s))

theorem eraseNode_keeps (node : ℕ) : Keeps AVL.links list.links (eraseNode allocator list node) := by
  refine .look fun n => .bind (setParent_keeps list.links _ _) fun s => ?_
  cases n.p with
  | none =>
    exact .bind (deallocate_keeps allocator { list with links := s, lc := _ } node) fun list =>
      .pure fun i n' h => ⟨n', h, rfl⟩
  | some parent =>
    refine .look fun _ => .ite ?_ ?_
    · exact .bind (writeChild_keeps s _ _ _) fun s =>
        unlink_keeps allocator list (incBalance_keeps s (some parent)) _ node parent 1
    · exact .bind (writeChild_keeps s _ _ _) fun s =>
        unlink_keeps allocator list (decBalance_keeps s (some parent)) _ node parent (-1)

theorem eraseFound_keeps (node : ℕ) :
    Keeps AVL.links list.links (eraseFound allocator list node) := by
  refine .look fun n => ?_
  cases n.l with
  | none => exact eraseNode_keeps allocator list node
  | some l =>
    cases n.r with
    | none => exact eraseNode_keeps allocator list node
    | some r =>
      exact .look fun successor => .bind (swapLinks_keeps list.links node successor) fun s =>
        eraseNode_keeps allocator { list with links := s } node

theorem erase_keeps (key : Key) :
    Keeps (fun y => y.2.links) list.links (erase allocator list key) := by
  refine .look fun x => ?_
  cases x with
  | none => exact .pure (.refl list.links)
  | some node =>
    exact .bind (eraseFound_keeps allocator list node) fun list => .pure (.refl list.links)

variable (factory : Factory) (h : factory.valid = true) (now : UInt64)

theorem insertBelow_keeps (node : ℕ) (d : Dir) :
    Keeps (fun y => y.2.links) (allocateNode allocator list factory h now (some node)).2.links
      (insertBelow allocator list factory h now node d) := by
  unfold insertBelow
  generalize allocateNode allocator list factory h now (some node) = a
  obtain ⟨_ | newnode, list⟩ := a
  · exact .pure (.refl list.links)
  · refine .bind (writeChild_keeps list.links _ _ _) fun s => ?_
    have hup := fun s : Links Item =>
      Keeps.bind (π := fun y : InsertResult × AVL σ => y.2.links)
        (f := fun s => some (⟨.INSERTED, some (factory.create h now)⟩, { list with links := s }))
        (rebalanceAfterInsert_keeps s list.fuel node) fun s => .pure (.refl s)
    exact .ite (.bind (decBalance_keeps s _) hup) (.bind (incBalance_keeps s _) hup)

/-- What holds of all addresses the allocator hands out holds of all nodes. -/
def Owned (P : ℕ → Prop) (s : Links Item) : Prop := ∀ i n, s.heap i = some n → P n.val.addr

variable {P : ℕ → Prop}

theorem Owned.kept {s s' : Links Item} (h : Owned P s) (hk : Kept s s') : Owned P s' := by
  intro i n' hi
  obtain ⟨n, hn, e⟩ := hk i n' hi
  exact e ▸ h i n hn

variable (hP : ∀ bytes alloc addr,
  (allocator.xallocate (INTERNAL_NODE_SIZE + bytes) alloc).1 = some addr → P addr)

include hP

theorem allocateNode_owned (ho : Owned P list.links) (parent : Option ℕ) :
    Owned P (allocateNode allocator list factory h now parent).2.links := by
  unfold allocateNode
  rcases hx : allocator.xallocate (INTERNAL_NODE_SIZE + factory.bytes) list.alloc with
    ⟨_ | addr, alloc⟩
  · exact ho
  · intro i n hi
    dsimp only at hi
    by_cases hin : i = list.next
    · rw [hin, Function.update_self] at hi
      rw [← Option.some.inj hi]
      exact hP factory.bytes list.alloc addr (by rw [hx])
    · rw [Function.update_of_ne hin] at hi
      exact ho i n hi

theorem insertHere_owned (ho : Owned P list.links) (node : ℕ) {y : InsertResult × AVL σ}
    (hy : insertHere allocator list factory h now node = some y) : Owned P y.2.links := by
  obtain ⟨n, hn, hy⟩ := Option.bind_eq_some_iff.mp hy
  dsimp only at hy
  split at hy
  · rw [← Option.some.inj hy]
    exact ho
  · split at hy
    · obtain ⟨s, hs, hy⟩ := Option.bind_eq_some_iff.mp hy
      rw [← Option.some.inj hy]
      refine ho.kept (write_keeps list.links (some node) ?_ s hs)
      exact fun _ => rfl
    · have ha := allocateNode_owned allocator list factory h now hP ho (some node)
      split at hy
      · next list' he =>
        rw [he] at ha
        rw [← Option.some.inj hy]
        exact ha
      · next newnode list' he =>
        rw [he] at ha
        obtain ⟨s, hs, hy⟩ := Option.bind_eq_some_iff.mp hy
        obtain ⟨list2, hd, hy⟩ := Option.bind_eq_some_iff.mp hy
        rw [← Option.some.inj hy]
        exact (ha.kept (copyLinks_keeps list'.links newnode node s hs)).kept
          (deallocate_keeps allocator _ node list2 hd)

/-- An insert adds a node at an address that the allocator hands out, or none. -/
theorem insertF_owned (ho : Owned P list.links) {y : InsertResult × AVL σ}
    (hy : insertF allocator list factory now = some y) : Owned P y.2.links := by
  unfold insertF at hy
  split at hy
  · next h =>
    split at hy
    · have ha := allocateNode_owned allocator list factory h now hP ho none
      split at hy
      · next list' he =>
        rw [he] at ha
        rw [← Option.some.inj hy]
        exact ha
      · next newnode list' he =>
        rw [he] at ha
        rw [← Option.some.inj hy]
        exact ha
    · obtain ⟨place, -, hy⟩ := Option.bind_eq_some_iff.mp hy
      cases place with
      | below node d =>
        exact (allocateNode_owned allocator list factory h now hP ho (some node)).kept
          (insertBelow_keeps allocator list factory h now node d y hy)
      | here node => exact insertHere_owned allocator list factory h now hP ho node hy
  · rw [← Option.some.inj hy]
    exact ho

end List

end HM4.AVLList

import HM4.AVLList

/-!
# Rotations and exchanges of links

What the functions that change links do to the tree that stands in the heap.
-/

namespace HM4.AVLLinks

open Footprint LinkedTree LinkedTree.LTree LinkedTree.Ctx LinkedTree.Links AVLList

/-- After a rotation the node on top tells its parent and the node that went down. -/
theorem fixParentAndChildren_rotate {d : Dir} {s s' : Links Item} {n r : ℕ} {x p : Option ℕ}
    {v : Item} (hr : s.get (some r) = some (Node.mk' d x (some n) p v))
    (hs : s.replaceChild p n r = some s') :
    fixParentAndChildren true (d = .right) (d = .left) s r n =
      s'.write (some n) (fun y => y.setP (some r)) := by
  cases d with
  | left =>
    rw [fixParentAndChildren, hr]
    dsimp only [Node.mk', bind, Option.bind]
    rw [if_pos rfl, hs]
    rfl
  | right =>
    rw [fixParentAndChildren, hr]
    dsimp only [Node.mk', bind, Option.bind]
    rw [if_pos rfl, hs]
    change (s'.setParent (some n) (some r)).bind some = s'.setParent (some n) (some r)
    cases s'.setParent (some n) (some r) <;> rfl

/-- A rotation brings the child on a side up, and the child's subtree on the other side
changes its parent. -/
theorem rotate_spec {d : Dir} {s : Links Item} {c : Ctx Item} {n r : ℕ} {v w : Item}
    {C T A : LTree Item} (h : s.Stands (plug c (join d n v (join d r w C T) A))) :
    ∃ s', rotate d s n = some s' ∧ s'.Stands (plug c (join d r w C (join d n v T A))) := by
  obtain ⟨hroot, h1⟩ := h.focus
  rw [addr_join] at h1
  have h2 : Holds s.heap [Ctx.piece none c (some n),
      cell n (Node.mk' d (some r) A.addr (parent none c) v),
      cell r (Node.mk' d C.addr T.addr (some n) w), LTree.piece (some r) C, LTree.piece (some r) T,
      LTree.piece (some n) A] :=
    Holds.same [_, _] [_] h1 (same_join (some n) d r w C T)
  have gn := get_eq [_] h2
  have gr := get_eq [_, _] h2
  obtain ⟨s1, w1, r1, h3⟩ := write_spec [_] h2 (fun x => x.setChild d T.addr)
  obtain ⟨s2, w2, r2, h4⟩ := setParent_spec [_, _, _, _] h3 (some n)
  obtain ⟨s3, w3, r3, h5⟩ := write_spec [_, _] h4 (fun x => x.setChild d.flip (some n))
  obtain ⟨s4, w4, r4, h6⟩ := write_spec [_, _] h5 (fun x => x.setP (parent none c))
  simp only [Node.setChild_mk', Node.setChild_flip_mk', Node.setP_mk'] at h3 h4 h5 h6
  have g4 := get_eq [_, _] h6
  have hr4 : s4.root = rootAddr c (some n) := by rw [r4, r3, r2, r1, hroot]
  obtain ⟨s5, w5, r5, h7⟩ := replaceChild_spec [] h6 (not_mem_ids h6) hr4 (y := r)
  obtain ⟨s6, w6, r6, h8⟩ := write_spec [_] h7 (fun y => y.setP (some r))
  have hfix := fixParentAndChildren_rotate g4 w5
  refine ⟨s6, ?_, ?_⟩
  · simp only [rotate, gn, gr, w1, w2, w3, w4, hfix, w6, Option.bind_eq_bind, Option.bind_some,
      Node.child_mk', Node.child_flip_mk', Node.p_mk']
  · rw [Node.setP_mk'] at h8
    have h9 := Holds.back [_] [_, _] h8
    have h10 := Holds.same [_, _, _] [] h9 (same_join (some r) d n v T A).symm
    refine Stands.of_focus (by rw [r6, r5]) ?_
    rw [addr_join]
    exact h10

/-- The double rotation brings the grandchild up that lies between the node and its child. -/
theorem rotateTwice_spec {d : Dir} {s : Links Item} {c : Ctx Item} {n r g : ℕ} {v w u : Item}
    {C X Y A : LTree Item}
    (h : s.Stands (plug c (join d n v (join d r w C (join d g u X Y)) A))) :
    ∃ s', rotateTwice d s n = some s' ∧
      s'.Stands (plug c (join d g u (join d r w C X) (join d n v Y A))) := by
  have gn := h.get_eq
  rw [addr_join] at gn
  have h1 : s.Stands (plug (⟨d, n, v, A⟩ :: c) (join d.flip r w (join d.flip g u Y X) C)) := by
    rw [join_flip, join_flip]
    exact h
  obtain ⟨s1, e1, h2⟩ := rotate_spec h1
  have h3 : s1.Stands (plug c (join d n v (join d g u (join d r w C X) Y) A)) := by
    rw [join_flip, join_flip] at h2
    exact h2
  obtain ⟨s2, e2, h4⟩ := rotate_spec h3
  refine ⟨s2, ?_, h4⟩
  simp only [rotateTwice, gn, e1, e2, Option.bind_eq_bind, Option.bind_some, Node.child_mk']

/-- The item with another balance. -/
def withBalance (v : Item) (balance : ℤ) : Item := { v with balance := balance }

@[simp] theorem withBalance_balance (v : Item) (b : ℤ) : (withBalance v b).balance = b := rfl

@[simp] theorem withBalance_data (v : Item) (b : ℤ) : (withBalance v b).data = v.data := rfl

@[simp] theorem withBalance_withBalance (v : Item) (a b : ℤ) :
    withBalance (withBalance v a) b = withBalance v b := rfl

theorem getBalance_spec {d : Dir} {s : Links Item} {c : Ctx Item} {n : ℕ} {v : Item}
    {x y : LTree Item} (h : s.Stands (plug c (join d n v x y))) :
    getBalance s (some n) = some v.balance := by
  simp only [getBalance, h.get_eq, Option.bind_eq_bind, Option.bind_some, Option.pure_def,
    Node.val_mk']

theorem setBalance_spec {d : Dir} {s : Links Item} {c : Ctx Item} {n : ℕ} {v : Item}
    {x y : LTree Item} (h : s.Stands (plug c (join d n v x y))) (b : ℤ) :
    ∃ s', setBalance s (some n) b = some s' ∧ s'.Stands (plug c (join d n (withBalance v b) x y)) :=
  h.write_val fun v => withBalance v b

theorem incBalance_spec {d : Dir} {s : Links Item} {c : Ctx Item} {n : ℕ} {v : Item}
    {x y : LTree Item} (h : s.Stands (plug c (join d n v x y))) :
    ∃ s', incBalance s (some n) = some s' ∧
      s'.Stands (plug c (join d n (withBalance v (v.balance + 1)) x y)) := by
  obtain ⟨s', e, h'⟩ := setBalance_spec h (v.balance + 1)
  refine ⟨s', ?_, h'⟩
  simp only [incBalance, getBalance_spec h, Option.bind_eq_bind, Option.bind_some, e]

theorem decBalance_spec {d : Dir} {s : Links Item} {c : Ctx Item} {n : ℕ} {v : Item}
    {x y : LTree Item} (h : s.Stands (plug c (join d n v x y))) :
    ∃ s', decBalance s (some n) = some s' ∧
      s'.Stands (plug c (join d n (withBalance v (v.balance - 1)) x y)) := by
  obtain ⟨s', e, h'⟩ := setBalance_spec h (v.balance - 1)
  refine ⟨s', ?_, h'⟩
  simp only [decBalance, getBalance_spec h, Option.bind_eq_bind, Option.bind_some, e]

theorem sign_ne_neg (d : Dir) : sign d ≠ -sign d := by cases d <;> decide

/-- The double rotation with its balances. -/
theorem rebalanceTwice_spec {d : Dir} {s : Links Item} {c : Ctx Item} {n r g : ℕ} {v w u : Item}
    {C X Y A : LTree Item}
    (h : s.Stands (plug c (join d n v (join d r w C (join d g u X Y)) A))) :
    ∃ s', rebalanceTwice d s n = some s' ∧
      s'.Stands (plug c (join d g (withBalance u 0)
        (join d r (withBalance w (if u.balance = -sign d then sign d else 0)) C X)
        (join d n (withBalance v (if u.balance = sign d then -sign d else 0)) Y A))) := by
  have gn := h.get_eq
  rw [addr_join] at gn
  have hr : s.Stands (plug (⟨d, n, v, A⟩ :: c) (join d r w C (join d g u X Y))) := h
  have gr := hr.get_eq
  rw [addr_join] at gr
  have hg : s.Stands (plug (⟨d.flip, r, w, C⟩ :: ⟨d, n, v, A⟩ :: c) (join d g u X Y)) := by
    rw [plug, join_flip]
    exact h
  obtain ⟨s1, e1, h1⟩ := setBalance_spec hg 0
  have h1' : s1.Stands (plug (⟨d, n, v, A⟩ :: c) (join d r w C (join d g (withBalance u 0) X Y))) := by
    rw [plug, join_flip] at h1
    exact h1
  obtain ⟨s2, e2, h2⟩ := setBalance_spec h1' 0
  have h2' : s2.Stands (plug c (join d n v (join d r (withBalance w 0) C
    (join d g (withBalance u 0) X Y)) A)) := h2
  obtain ⟨s3, e3, h3⟩ := setBalance_spec h2' 0
  have hrun : ∀ s4, (if u.balance = sign d then setBalance s3 (some n) (-sign d)
      else if u.balance = -sign d then setBalance s3 (some r) (sign d) else some s3) = some s4 →
      rebalanceTwice d s n = rotateTwice d s4 n := by
    intro s4 e4
    simp only [rebalanceTwice, gn, gr, getBalance_spec hg, e1, e2, e3, Option.bind_eq_bind,
      Option.bind_some, Node.child_mk', Node.child_flip_mk']
    split_ifs at e4 ⊢
    · rw [e4, Option.bind_some]
    · rw [e4, Option.bind_some]
    · rw [Option.some_inj.mp e4]
  by_cases hpos : u.balance = sign d
  · have hneg : u.balance ≠ -sign d := hpos ▸ sign_ne_neg d
    obtain ⟨s4, e4, h4⟩ := setBalance_spec h3 (-sign d)
    obtain ⟨s5, e5, h5⟩ := rotateTwice_spec h4
    rw [if_pos hpos, if_neg hneg]
    refine ⟨s5, ?_, h5⟩
    rw [hrun s4 (by rw [if_pos hpos, e4]), e5]
  · by_cases hneg : u.balance = -sign d
    · have h3' : s3.Stands (plug (⟨d, n, withBalance v 0, A⟩ :: c)
        (join d r (withBalance w 0) C (join d g (withBalance u 0) X Y))) := h3
      obtain ⟨s4, e4, h4⟩ := setBalance_spec h3' (sign d)
      have h4' : s4.Stands (plug c (join d n (withBalance v 0)
        (join d r (withBalance w (sign d)) C (join d g (withBalance u 0) X Y)) A)) := h4
      obtain ⟨s5, e5, h5⟩ := rotateTwice_spec h4'
      rw [if_neg hpos, if_pos hneg]
      refine ⟨s5, ?_, h5⟩
      rw [hrun s4 (by rw [if_neg hpos, if_pos hneg, e4]), e5]
    · obtain ⟨s5, e5, h5⟩ := rotateTwice_spec h3
      rw [if_neg hpos, if_neg hneg]
      refine ⟨s5, ?_, h5⟩
      rw [hrun s3 (by rw [if_neg hpos, if_neg hneg]), e5]

/-! ## Exchanging nodes -/

/-- Addresses of disjoint pieces differ. -/
theorem ne_of_holds {h : Heap (Node Item)} {a b : ℕ} {x y : Piece (Node Item)}
    {qs : List (Piece (Node Item))} (hold : Holds h (x :: y :: qs)) (ha : a ∈ x.ids)
    (hb : b ∈ y.ids) : a ≠ b := by
  rintro rfl
  have hnd := hold.nodup
  rw [idsOf_cons, idsOf_cons] at hnd
  exact (List.nodup_append.mp hnd).2.2 a ha a (List.mem_append_left _ hb) rfl

/-- A node takes the place of another one: the parent and both children are told. -/
theorem fixAll_spec {s : Links Item} {c : Ctx Item} {a b : ℕ} {v : Item} {p q : Option ℕ}
    {x y : LTree Item} {qs : List (Piece (Node Item))}
    (h : Holds s.heap (cell a (Node.mk' .left x.addr y.addr (parent none c) v) ::
      Ctx.piece none c (some b) :: LTree.piece p x :: LTree.piece q y :: qs))
    (hb : b ∉ Ctx.ids c) (hroot : s.root = rootAddr c (some b)) :
    ∃ s', fixParentAndChildren true true true s a b = some s' ∧ s'.root = rootAddr c (some a) ∧
      Holds s'.heap (cell a (Node.mk' .left x.addr y.addr (parent none c) v) ::
        Ctx.piece none c (some a) :: LTree.piece (some a) x :: LTree.piece (some a) y :: qs) := by
  have ga := get_eq [] h
  obtain ⟨s1, e1, r1, h1⟩ := replaceChild_spec [_] h hb hroot (y := a)
  obtain ⟨s2, e2, r2, h2⟩ := setParent_spec [_, _] h1 (some a)
  obtain ⟨s3, e3, r3, h3⟩ := setParent_spec [_, _, _] h2 (some a)
  refine ⟨s3, ?_, by rw [r3, r2, r1], h3⟩
  simp only [fixParentAndChildren, ga, Node.mk', e1, e2, e3, if_true, Option.bind_eq_bind,
    Option.bind_some]

/-- A new node takes the links of another one, which keeps none. -/
theorem copyLinks_spec {s : Links Item} {c : Ctx Item} {a b : ℕ} {m : Node Item} {v : Item}
    {x y : LTree Item} (hroot : s.root = rootAddr c (some b))
    (h : Holds s.heap [cell a m, LTree.piece none (plug c (join .left b v x y))]) :
    ∃ s', copyLinks s a b = some s' ∧ s'.root = rootAddr c (some a) ∧
      Holds s'.heap [cell b ⟨none, none, none, withBalance v (-2)⟩,
        LTree.piece none (plug c (join .left a (withBalance m.val v.balance) x y))] := by
  have h1 := Holds.same [_] [] h (same_plug none c (join .left b v x y))
  have h2 := Holds.same [_, _] [] h1 (same_join (parent none c) .left b v x y)
  rw [addr_join] at h2
  have gb := get_eq [_, _] h2
  obtain ⟨s1, e1, r1, h3⟩ := write_spec [] h2 fun n =>
    { Node.mk' .left x.addr y.addr (parent none c) v with
      val := { n.val with balance := (Node.mk' .left x.addr y.addr (parent none c) v).val.balance } }
  have h4 : Holds s1.heap [cell a (Node.mk' .left x.addr y.addr (parent none c)
      (withBalance m.val v.balance)), Ctx.piece none c (some b), LTree.piece (some b) x,
      LTree.piece (some b) y, cell b (Node.mk' .left x.addr y.addr (parent none c) v)] :=
    Holds.back [_, _] [_, _] h3
  have hb : b ∉ Ctx.ids c := by
    have hb' := Holds.of_append [_] h2
    exact not_mem_ids hb'
  obtain ⟨s2, e2, r2, h5⟩ := fixAll_spec h4 hb (r1.trans hroot)
  obtain ⟨s3, e3, r3, h6⟩ := write_spec [_, _, _, _] h5 fun n =>
    ⟨none, none, none, { n.val with balance := -2 }⟩
  refine ⟨s3, ?_, r3.trans r2, ?_⟩
  · simp only [copyLinks, gb, e1, e2, e3, Option.bind_eq_bind, Option.bind_some]
  · have h7 := Holds.forth [] [_, _, _, _] h6
    have h8 := Holds.forth [_] [_] h7
    have h9 := Holds.same [_, _] [] h8
      (same_join (parent none c) .left a (withBalance m.val v.balance) x y).symm
    rw [← addr_join .left a (withBalance m.val v.balance) x y] at h9
    exact Holds.same [_] [] h9 (same_plug none c _).symm

/-- Both nodes have each other's links and balance. -/
theorem swapWords_spec {s : Links Item} {a b : ℕ} {na nb : Node Item}
    {qs : List (Piece (Node Item))} (h : Holds s.heap (cell a na :: cell b nb :: qs)) :
    ∃ s', swapWords s a b = some s' ∧ s'.root = s.root ∧
      Holds s'.heap (cell a { nb with val := withBalance na.val nb.val.balance } ::
        cell b { na with val := withBalance nb.val na.val.balance } :: qs) := by
  have ga := get_eq [] h
  have gb := get_eq [_] h
  obtain ⟨s1, e1, r1, h1⟩ := write_spec [] h fun n =>
    { nb with val := { n.val with balance := nb.val.balance } }
  obtain ⟨s2, e2, r2, h2⟩ := write_spec [_] h1 fun n =>
    { na with val := { n.val with balance := na.val.balance } }
  refine ⟨s2, ?_, r2.trans r1, h2⟩
  simp only [swapWords, ga, gb, e1, e2, Option.bind_eq_bind, Option.bind_some]

/-- A node and its right child exchange their places. -/
theorem swapLinksRelative_spec {s : Links Item} {c : Ctx Item} {a b : ℕ} {va vb : Item}
    {L X Y : LTree Item}
    (h : s.Stands (plug c (join .right a va (join .left b vb X Y) L))) :
    ∃ s', swapLinksRelative s a b = some s' ∧
      s'.Stands (plug c (join .right b (withBalance vb va.balance)
        (join .left a (withBalance va vb.balance) X Y) L)) := by
  obtain ⟨hroot, h1⟩ := h.focus
  rw [addr_join] at h1
  have h2 := Holds.same [_, _] [_] h1 (same_join (some a) .left b vb X Y)
  have h3 : Holds s.heap [cell a (Node.mk' .right (some b) L.addr (parent none c) va),
      cell b (Node.mk' .left X.addr Y.addr (some a) vb), Ctx.piece none c (some a),
      LTree.piece (some b) X, LTree.piece (some b) Y, LTree.piece (some a) L] :=
    Holds.back [] [_, _] h2
  have ha : a ∉ Ctx.ids c := not_mem_ids h1
  have hL : L.addr ≠ some b := by
    intro he
    have h5 := Holds.forth [_] [_, _, _] (Holds.of_append [_] h3)
    exact ne_of_holds (Holds.forth [] [_] h5) (addr_mem he) (List.mem_singleton.mpr rfl) rfl
  obtain ⟨s1, e1, r1, h4⟩ := swapWords_spec h3
  have g1 := get_eq [_] h4
  obtain ⟨s2, e2, r2, h5⟩ := replaceChild_spec [_, _] h4 ha (r1.trans hroot) (y := b)
  have g2 := get_eq [] h5
  obtain ⟨s3, e3, r3, h6⟩ := setParent_spec [_, _, _] h5 (some a)
  obtain ⟨s4, e4, r4, h7⟩ := setParent_spec [_, _, _, _] h6 (some a)
  obtain ⟨s5, e5, r5, h8⟩ := write_spec [] h7 fun n => n.setP (some b)
  have g5 := get_eq [_] h8
  obtain ⟨s6, e6, r6, h9⟩ := setParent_spec [_, _, _, _, _] h8 (some b)
  obtain ⟨s7, e7, r7, h10⟩ := write_spec [_] h9 fun n => n.setChild .right (some a)
  refine ⟨s7, ?_, Stands.of_focus (by rw [r7, r6, r5, r4, r3, r2]) ?_⟩
  · have f1 : fixParentAndChildren true false false s1 b a = some s2 := by
      simp only [fixParentAndChildren, g1, e2, Node.p_mk', if_true, Bool.false_eq_true, if_false,
        Option.bind_eq_bind, Option.bind_some]
    have f2 : fixParentAndChildren false true true s2 a a = some s4 := by
      simp only [fixParentAndChildren, g2, Node.mk', e3, e4, if_true, Bool.false_eq_true, if_false,
        Option.bind_eq_bind, Option.bind_some]
    have f3 : fixParentAndChildren false true false s5 b b = some s6 := by
      simp only [fixParentAndChildren, g5, Node.mk', e6, if_true, Bool.false_eq_true, if_false,
        Option.bind_eq_bind, Option.bind_some]
    simp only [swapLinksRelative, e1, f1, f2, e5, g5, f3, e7, Option.bind_eq_bind,
      Option.bind_some]
    exact if_neg hL
  · have h11 := Holds.forth [] [_, _] h10
    have h12 := Holds.forth [_] [_] h11
    have h13 := Holds.same [_, _] [_] h12
      (same_join (some b) .left a (withBalance va vb.balance) X Y).symm
    rw [addr_join]
    exact h13

/-- A node and a node further down in its right subtree exchange their places. -/
theorem swapLinksNormal_spec {s : Links Item} {c1 c2 : Ctx Item} {a b : ℕ} {va vb : Item}
    {L X Y : LTree Item} (hc2 : c2 ≠ [])
    (h : s.Stands (plug (c2 ++ ⟨.right, a, va, L⟩ :: c1) (join .left b vb X Y))) :
    ∃ s', swapLinksNormal s a b = some s' ∧
      s'.Stands (plug (c2 ++ ⟨.right, b, withBalance vb va.balance, L⟩ :: c1)
        (join .left a (withBalance va vb.balance) X Y)) := by
  obtain ⟨hroot, h1⟩ := h.focus
  have hb : b ∉ Ctx.ids (c2 ++ ⟨.right, a, va, L⟩ :: c1) := not_mem_ids h1
  rw [rootAddr_append, rootAddr] at hroot
  rw [parent_append, parent] at h1
  rw [ids_append] at hb
  have h2 := Holds.same [] _ h1 (same_append none c2 (⟨.right, a, va, L⟩ :: c1) (some b))
  have h3 := Holds.same [_] _ h2 (same_frame none ⟨.right, a, va, L⟩ c1 (rootAddr c2 (some b)))
  have h4 : Holds s.heap [cell a (Node.mk' .right (rootAddr c2 (some b)) L.addr (parent none c1) va),
      cell b (Node.mk' .left X.addr Y.addr (parent (some a) c2) vb),
      Ctx.piece (some a) c2 (some b), LTree.piece (some a) L, Ctx.piece none c1 (some a),
      LTree.piece (some b) X, LTree.piece (some b) Y] :=
    Holds.forth [_] [_, _, _] (Holds.forth [] [_] h3)
  have ha : a ∉ Ctx.ids c1 := by
    have h5 := Holds.forth [] [_, _, _, _] h4
    have h6 := Holds.forth [_] [] h5
    exact not_mem_ids h6
  obtain ⟨s1, e1, r1, h5⟩ := swapWords_spec h4
  have g1 := get_eq [] h5
  obtain ⟨s2, e2, r2, h6⟩ := replaceChild_ctx_spec (y := a) hc2 [_, _] h5
    (fun hm => hb (List.mem_append_left _ hm))
  obtain ⟨s3, e3, r3, h7⟩ := setParent_spec [_, _, _, _, _] h6 (some a)
  obtain ⟨s4, e4, r4, h8⟩ := setParent_spec [_, _, _, _, _, _] h7 (some a)
  have g4 := get_eq [_] h8
  obtain ⟨s5, e5, r5, h9⟩ := replaceChild_spec (y := b) [_, _, _, _] h8 ha
    (by rw [r4, r3, r2, r1, hroot])
  obtain ⟨s6, e6, r6, h10⟩ := setParent_spec [_, _, _] h9 (some b)
  obtain ⟨s7, e7, r7, h11⟩ := setParent_ctx_spec hc2 [_, _] h10 (some b)
  rw [rootAddr_of_ne_nil hc2 (some a) (some b)] at e7
  refine ⟨s7, ?_, Stands.of_focus ?_ ?_⟩
  · have f1 : fixParentAndChildren true true true s1 a b = some s4 := by
      simp only [fixParentAndChildren, g1, Node.mk', e2, e3, e4, if_true, Option.bind_eq_bind,
        Option.bind_some]
    have f2 : fixParentAndChildren true true true s4 b a = some s7 := by
      simp only [fixParentAndChildren, g4, Node.mk', e5, e6, e7, if_true, Option.bind_eq_bind,
        Option.bind_some]
    simp only [swapLinksNormal, e1, f1, f2, Option.bind_eq_bind, Option.bind_some]
  · rw [rootAddr_append, rootAddr, r7, r6, r5]
  · rw [parent_append, parent, parent_of_ne_nil hc2 (some b) (some a)]
    have h12 := Holds.back [] [_, _, _, _] h11
    have h13 := Holds.back [] [_] h12
    have h14 : Holds s7.heap ([Ctx.piece (some b) c2 (some a)] ++ ([cell b (Node.mk' .right
        (rootAddr c2 (some a)) L.addr (parent none c1) (withBalance vb va.balance)),
        LTree.piece (some b) L, Ctx.piece none c1 (some b)] ++
        [cell a (Node.mk' .left X.addr Y.addr (parent (some a) c2) (withBalance va vb.balance)),
          LTree.piece (some a) X, LTree.piece (some a) Y])) := by
      rw [rootAddr_of_ne_nil hc2 (some a) (some b)]
      exact h13
    have h15 := h14.same [_] _ (same_frame none ⟨.right, b, withBalance vb va.balance, L⟩ c1
      (rootAddr c2 (some a))).symm
    exact Holds.same [] _ h15 (same_append none c2
      (⟨.right, b, withBalance vb va.balance, L⟩ :: c1) (some a)).symm

/-- A node exchanges its place with a node in its right subtree, however far down. -/
theorem swapLinks_spec {s : Links Item} {c1 c2 : Ctx Item} {a b : ℕ} {va vb : Item}
    {L X Y : LTree Item}
    (h : s.Stands (plug (c2 ++ ⟨.right, a, va, L⟩ :: c1) (join .left b vb X Y))) :
    ∃ s', swapLinks s a b = some s' ∧
      s'.Stands (plug (c2 ++ ⟨.right, b, withBalance vb va.balance, L⟩ :: c1)
        (join .left a (withBalance va vb.balance) X Y)) := by
  have gb := h.get_eq
  have ha : s.Stands (plug c1 (join .right a va (plug c2 (join .left b vb X Y)) L)) := by
    rw [plug_append] at h
    exact h
  have ga := ha.get_eq
  rw [parent_append, parent] at gb
  by_cases hc2 : c2 = []
  · subst hc2
    obtain ⟨s', e, h'⟩ := swapLinksRelative_spec h
    refine ⟨s', ?_, h'⟩
    simp only [swapLinks, gb, Node.p_mk', parent, if_true, Option.bind_eq_bind, Option.bind_some, e]
  · obtain ⟨s', e, h'⟩ := swapLinksNormal_spec hc2 h
    have hb : b ∈ (join .left b vb X Y).ids := List.mem_cons_self
    have hpb : parent (some a) c2 ≠ some a := by
      obtain ⟨f, c, rfl⟩ := List.exists_cons_of_ne_nil hc2
      have hnd := (ids_plug _ _).nodup_iff.mp h.nodup
      rw [ids_append, List.append_assoc] at hnd
      intro he
      exact (List.nodup_append.mp hnd).2.2 f.id List.mem_cons_self a
        (List.mem_append_left _ List.mem_cons_self) (Option.some_inj.mp he)
    have hpa : parent none c1 ≠ some b := by
      cases c1 with
      | nil => exact (Option.some_ne_none b).symm
      | cons f c =>
        intro he
        refine h.disjoint ?_ hb (Option.some_inj.mp he)
        rw [ids_append]
        exact List.mem_append_right _ (List.mem_cons_of_mem _ (List.mem_append_right _
          List.mem_cons_self))
    refine ⟨s', ?_, h'⟩
    simp only [swapLinks, gb, ga, Node.p_mk', if_neg hpb, if_neg hpa, Option.bind_eq_bind,
      Option.bind_some, e]

end HM4.AVLLinks

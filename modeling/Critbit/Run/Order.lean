import Critbit.Run.Refine

/-!
# The leaves are in key order

Nothing in the code compares keys for order; the order is that of the bits.  At a fork the leaves on
the left have a `0` where those on the right have a `1`, and agree with them before, so their bytes
compare so (`strcmp_neg`), and the whole tree is sorted (`visit_sorted`).
-/

namespace Crit.CTree
variable {A ι K V : Type*} [LinearOrder ι] {bit : K → ι → Bool}

/-- the keys from left to right, under any relation that the first difference decides -/
theorem WF.pairwise_keys {r : K → K → Prop} {t : CTree A ι K V} (h : t.WF bit)
    (hr : ∀ x y i, FirstDiff bit x y i → bit x i = false → r x y) : t.keys.Pairwise r := by
  induction t with
  | leaf a k v =>
    rw [keys_leaf]
    exact List.pairwise_singleton r k
  | node a i c ih =>
    rw [keys_node, List.pairwise_append]
    refine ⟨ih false (h.child false), ih true (h.child true), ?_⟩
    intro x hx y hy
    have h0 := h.forks.side false x hx
    have h1 := h.forks.side true y hy
    refine hr x y i ⟨h.forks.below false true x hx y hy, ?_⟩ h0
    rw [h0, h1]
    exact Bool.false_ne_true

end Crit.CTree

namespace Critbit
open Crit CTree

/-! ## the order of `strcmp` -/

/-- `strcmp` sorts `x` in front of `y` -/
def Before (x y : Key) : Prop := ∃ c < 0, strcmp x.buf y.buf = .ok c

theorem before_of_byte {x y : Key} {b : Nat} (h : ∀ j < b, x.byteAt j = y.byteAt j)
    (hb : (x.byteAt b).toNat < (y.byteAt b).toNat) : Before x y := by
  have hne : x.byteAt b ≠ y.byteAt b := by
    intro e
    rw [e] at hb
    omega
  exact ⟨_, by omega, strcmp_firstByte h hne⟩

/-- a `0` at the first difference comes first -/
theorem strcmp_neg {x y : Key} {n : Nat} (hd : FirstDiff Key.bit x y n) (hx : x.bit n = false) :
    Before x y := by
  have hi : n % 8 < 8 := Nat.mod_lt _ (by omega)
  have hy : y.bit n = true := by
    have h1 := hd.2
    rw [hx] at h1
    exact Bool.eq_true_of_not_eq_false (Ne.symm h1)
  have ha := hd.1
  rw [← pos_div_mod n, Key.agree_pos_iff hi] at ha
  exact before_of_byte ha.1 (lt_of_bitOf hi ha.2 hx hy)

theorem Before.asymm {x y : Key} (h : Before x y) : ¬ Before y x := by
  intro h'
  obtain ⟨c, hc, e⟩ := h
  obtain ⟨c', hc', e'⟩ := h'
  have hne : x ≠ y := by
    intro exy
    rw [exy, strcmp_self, Except.ok.injEq] at e
    omega
  obtain ⟨b, h1, hb⟩ := Key.exists_firstByte hne
  rw [strcmp_firstByte h1 hb, Except.ok.injEq] at e
  rw [strcmp_firstByte (fun j hj => (h1 j hj).symm) hb.symm, Except.ok.injEq] at e'
  omega

/-- a proper prefix comes first: it has ended where the other goes on -/
theorem prefix_before {x y : Key} (h : x.bytes <+: y.bytes) (hne : x ≠ y) : Before x y := by
  obtain ⟨l, hl⟩ := h
  have hlen : strlen x < strlen y := by
    have h0 : l ≠ [] := by
      intro e
      rw [e, List.append_nil] at hl
      exact hne (Key.ext_bytes hl)
    unfold strlen
    rw [← hl, List.length_append]
    have := List.length_pos_of_ne_nil h0
    omega
  apply before_of_byte (b := strlen x)
  · intro j hj
    show x.bytes.getD j 0 = y.bytes.getD j 0
    rw [← hl, List.getD_append _ _ _ _ hj]
  · rw [Key.byteAt_of_le le_rfl]
    have h0 := Key.byteAt_ne_zero hlen
    have h1 : (y.byteAt (strlen x)).toNat ≠ 0 := fun e => h0 (UInt8.toNat_inj.mp e)
    show 0 < _
    omega

/-- two entries of a sorted list stand in their order -/
theorem pair_sublist {α : Type} {r : α → α → Prop} {l : List α} (h : l.Pairwise r)
    (hr : ∀ x y, r x y → ¬ r y x) {x y : α} (hx : x ∈ l) (hy : y ∈ l) (hxy : r x y) :
    List.Sublist [x, y] l := by
  induction l with
  | nil => exact absurd hx List.not_mem_nil
  | cons z l ih =>
    rw [List.pairwise_cons] at h
    rcases List.mem_cons.mp hx with rfl | hx'
    · apply List.Sublist.cons_cons
      rw [List.singleton_sublist]
      exact (List.mem_cons.mp hy).resolve_left fun e => hr _ _ hxy (e ▸ hxy)
    · rcases List.mem_cons.mp hy with rfl | hy'
      · exact absurd (h.1 x hx') (hr _ _ hxy)
      · exact (ih h.2 hx' hy').cons z

/-! ## the leaves of a tree in memory -/

variable {h : Heap} {root : Addr} {m : Map}

theorem visit_rep {t : MTree} (hr : Rep h t) {fuel : Nat} (hf : t.forks < fuel) :
    visit h fuel (ptr t) = .ok (t.binds.map fun b => ⟨b.2, b.1.buf⟩) := by
  induction t generalizing fuel with
  | leaf a x v =>
    obtain ⟨f, rfl⟩ := Nat.exists_eq_add_one_of_ne_zero (Nat.ne_zero_of_lt hf)
    show (h.str (.str a) >>= _) = _
    rw [Heap.str_ok hr, ok_bind]
    rfl
  | node a i c ih =>
    obtain ⟨f, rfl⟩ := Nat.exists_eq_add_one_of_ne_zero (Nat.ne_zero_of_lt hf)
    show (h.node a >>= fun n => visit h f (n.child false) >>= fun l =>
      visit h f (n.child true) >>= fun r => pure (l ++ r)) = _
    rw [Heap.node_ok hr.node, ok_bind]
    show (visit h f (ptr (c false)) >>= fun l => visit h f (ptr (c true)) >>= _) = _
    rw [ih false (hr.child _) (forks_lt_child hf _), ok_bind,
      ih true (hr.child _) (forks_lt_child hf _), ok_bind, binds_node, List.map_append]
    rfl

/-- **The leaves come in strictly increasing `strcmp` order**, and a proper prefix of a key comes
before the key. -/
theorem visit_sorted (hr : Reached root h m) : ∃ r bs, h.root root = .ok r ∧
    visit h (h.size + 1) r.head = .ok (bs.map fun b => ⟨b.2, Key.buf b.1⟩) ∧
    (∀ k v, (k, v) ∈ bs ↔ m k = some v) ∧
    bs.Pairwise (fun b b' => ∃ c < 0, strcmp b.1.buf b'.1.buf = .ok c) ∧
    ∀ b ∈ bs, ∀ b' ∈ bs, b.1.bytes <+: b'.1.bytes → b.1 ≠ b'.1 → List.Sublist [b, b'] bs := by
  obtain ⟨T, O, rfl⟩ := hr.owns
  obtain ⟨x, hx, hp⟩ := O.record
  have hsort : (bindsOf T).Pairwise (fun b b' => Before b.1 b'.1) := by
    have hkeys : (keysOf T).Pairwise Before := by
      cases T with
      | none => exact List.Pairwise.nil
      | some t => exact (O.good t rfl).wf.pairwise_keys fun _ _ _ => strcmp_neg
    rw [keysOf_eq] at hkeys
    exact List.pairwise_map.mp hkeys
  refine ⟨x, bindsOf T, Heap.root_ok hx, ?_, fun k v => ?_, hsort, ?_⟩
  · rw [hp]
    cases T with
    | none => rfl
    | some t => exact visit_rep (O.rep t rfl) (Nat.lt_succ_of_lt O.forks_lt)
  · exact (valueOf_eq_some O.good).symm
  · intro b hb b' hb' hpre hne
    exact pair_sublist hsort (fun _ _ => Before.asymm) hb hb' (prefix_before hpre hne)

theorem visit_sorted_two : ∃ (h : Heap) (r : Root) (bs : List (Key × Val)),
    Reached 0 h (bindAll Map.empty [(⟨[97], by decide⟩, 5), (⟨[97, 98], by decide⟩, 6)]) ∧
    h.root 0 = .ok r ∧ visit h (h.size + 1) r.head = .ok (bs.map fun b => ⟨b.2, Key.buf b.1⟩) ∧
    bs.Pairwise (fun b b' => ∃ c < 0, strcmp b.1.buf b'.1.buf = .ok c) ∧
    List.Sublist [(⟨[97], by decide⟩, 5), (⟨[97, 98], by decide⟩, 6)] bs := by
  obtain ⟨h, hr⟩ := reached_two
  obtain ⟨r, bs, hroot, hv, hmem, hs, hpre⟩ := visit_sorted hr
  exact ⟨h, r, bs, hr, hroot, hv, hs, hpre _ ((hmem _ _).mpr (by decide)) _
    ((hmem _ _).mpr (by decide)) ⟨[98], rfl⟩ (by decide)⟩

end Critbit

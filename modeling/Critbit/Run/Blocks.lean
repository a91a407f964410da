import Critbit.Run.Refine
import Critbit.Memory.Reach

/-!
# Which blocks are live

In every reachable state the live blocks are the root record and what is reached from `head`, each
through one pointer, and a call that returns `1` leaves them and the tree alone
(`balanced_reached`).  `free` of a block that is not live is a fault, so a call that comes to an end
has freed nothing twice.
-/

namespace Critbit
open Crit CTree

/-- only the locks of the root record may differ -/
def SameTree (root : Addr) (h h' : Heap) : Prop :=
  (∀ b, b ≠ root → h'.lookup b = h.lookup b) ∧
    ∃ r r', h.root root = .ok r ∧ h'.root root = .ok r' ∧ r'.head = r.head

/-- `n` keys are stored, and no memory is lost -/
structure Balanced (h : Heap) (root : Addr) (head : Ptr) (n : Nat) : Prop where
  live : ∀ b, b ∈ h ↔ b = root ∨ ∃ p, Below h head p ∧ p.block = some b
  once : ∀ b ∈ h, b ≠ root → ∃! s, TreeSlot h root head s ∧ PointsTo h s b
  leaves : {a | ∃ s, h.lookup a = some (.str s)}.ncard = n
  nodes : {a | ∃ x, h.lookup a = some (.node x)}.ncard = n - 1

/-- the node `b` of the tree is the parent of the leaf `a` -/
def ParentOf (h : Heap) (head : Ptr) (a b : Addr) : Prop :=
  Below h head (.node b) ∧ ∃ n d, h.node b = .ok n ∧ n.child d = .str a

section
variable {h h' : Heap} {root : Addr} {T T' : Option MTree} {k : Key} {old : List Addr}

/-- two heaps of one tree differ in the locks only -/
theorem Owns.sameTree (O : Owns h root T) (O' : Owns h' root T) : SameTree root h h' := by
  obtain ⟨x, hx, hp⟩ := O.record
  obtain ⟨y, hy, hq⟩ := O'.record
  refine ⟨fun b hb => ?_, x, y, Heap.root_ok hx, Heap.root_ok hy, hq.trans hp.symm⟩
  by_cases hm : b ∈ annotsOf T
  · cases T with
    | none => exact absurd hm List.not_mem_nil
    | some t => exact (O.rep t rfl).lookup_eq (O'.rep t rfl) hm
  · have hn : b ∉ root :: annotsOf T := fun e => (List.mem_cons.mp e).elim hb hm
    rw [Finmap.lookup_eq_none.mpr (mt (O.live b).mp hn),
      Finmap.lookup_eq_none.mpr (mt (O'.live b).mp hn)]

/-! ## the blocks of a state -/

/-- a live block that is not the root record is a block of the tree -/
theorem Owns.mem_annots (O : Owns h root T) {a : Addr} {b : Block} (ha : h.lookup a = some b)
    (hb : ∀ x, b ≠ .root x) : a ∈ annotsOf T := by
  rcases List.mem_cons.mp ((O.live a).mp (Heap.mem_of_lookup ha)) with rfl | e
  · obtain ⟨x, hx, -⟩ := O.record
    exact absurd (Option.some.inj (ha.symm.trans hx)) (hb x)
  · exact e

theorem balanced_empty {head : Ptr} (O : Owns h root none) (hp : head = .null) :
    Balanced h root head 0 := by
  have hno : ∀ {a b}, h.lookup a = some b → (∀ x, b ≠ .root x) → False := fun ha hb =>
    List.not_mem_nil (O.mem_annots ha hb)
  have hstr : ∀ a, a ∉ {a | ∃ s, h.lookup a = some (.str s)} := by
    rintro a ⟨s, hs⟩
    exact hno hs fun x e => by cases e
  have hnode : ∀ a, a ∉ {a | ∃ n, h.lookup a = some (.node n)} := by
    rintro a ⟨n, hn⟩
    exact hno hn fun x e => by cases e
  refine ⟨fun b => ?_, fun b hb hne => ?_, ?_, ?_⟩
  · rw [O.live, hp]
    refine ⟨fun e => .inl (List.mem_singleton.mp e), ?_⟩
    rintro (rfl | ⟨p, hb, e⟩)
    · exact List.mem_cons_self
    · rw [not_below_null hb] at e
      cases e
  · exact absurd (List.mem_singleton.mp ((O.live b).mp hb)) hne
  · rw [Set.eq_empty_of_forall_notMem hstr, Set.ncard_empty]
  · rw [Set.eq_empty_of_forall_notMem hnode, Set.ncard_empty]

theorem balanced_tree {t : MTree} {head : Ptr} (O : Owns h root (some t)) (hp : head = ptr t)
    (hl : h.load (.head root) = .ok (ptr t)) : Balanced h root head t.keys.length := by
  subst hp
  have hr := O.rep t rfl
  have hn : t.annots.Nodup := (List.nodup_cons.mp O.nodup).2
  refine ⟨fun b => ?_, fun b hb hne => ?_, ?_, ?_⟩
  · rw [O.live, List.mem_cons]
    exact or_congr_right (block_iff hr)
  · exact pointsTo_unique hr hl hn ((List.mem_cons.mp ((O.live b).mp hb)).resolve_left hne)
  · rw [← leafBlocks_card hr hn]
    congr 1
    ext a
    exact ⟨fun ⟨s, hs⟩ => ⟨O.mem_annots hs (fun x e => by cases e), s, hs⟩, fun e => e.2⟩
  · rw [← nodeBlocks_card hr hn]
    congr 1
    ext a
    exact ⟨fun ⟨s, hs⟩ => ⟨O.mem_annots hs (fun x e => by cases e), s, hs⟩, fun e => e.2⟩

/-- the number of keys of a tree is that of its map -/
theorem ncard_bound (hT : ∀ t ∈ T, Good t) :
    {x | valueOf T x ≠ none}.ncard = (keysOf T).length := by
  rw [← ncard_list (nodup_keysOf hT)]
  congr 1
  ext x
  exact not_iff_comm.mp valueOf_eq_none.symm

/-! ## what a deletion frees -/

/-- the unlinked blocks are the leaf of the key and its parent -/
theorem Deleted.blocks {head : Ptr} (D : Deleted k T T' old) (O : Owns h root T)
    (hp : head = ptrOf T) (hl : h.load (.head root) = .ok head) :
    ∃ a v, Below h head (.str a) ∧ h.str (.str a) = .ok ⟨v, Key.buf k⟩ ∧
      ∀ b, b ∈ old ↔ b = a ∨ ParentOf h head a b := by
  subst hp
  cases D with
  | last a v =>
    have hr : Rep h (leaf a k v) := O.rep _ rfl
    refine ⟨a, v, .refl, Heap.str_ok hr, fun b => ?_⟩
    rw [List.mem_singleton]
    refine ⟨.inl, fun e => e.resolve_right ?_⟩
    rintro ⟨hb, -⟩
    obtain ⟨i, c, hs, -⟩ := below_node hr hb
    cases hs
  | pull t C g hk hg =>
    have hr := O.rep t rfl
    have hn : t.annots.Nodup := (List.nodup_cons.mp O.nodup).2
    obtain ⟨hfill, -, -, hleaf⟩ := lastFork_some hg
    have hsub : Sub (.node g.a g.i g.c) t := hfill ▸ sub_fill C (.node g.a g.i g.c)
    have hnode := (hr.sub hsub).node
    have hbelow : Below h (ptr t) (.node g.a) := (below_iff hr).mpr ⟨_, hsub, rfl⟩
    have hmem := nearest_mem Key.bit k t
    have hblock := Heap.str_ok (hr.leaf hmem)
    rw [hk] at hblock
    have hpar : ParentOf h (ptr t) (t.nearest Key.bit k).1 g.a :=
      ⟨hbelow, _, g.d, Heap.node_ok hnode, by
        show ptr (g.c g.d) = _
        rw [hleaf]; rfl⟩
    refine ⟨(t.nearest Key.bit k).1, _, below_leaf hr hmem, hblock, fun b => ?_⟩
    rw [List.mem_pair]
    refine or_congr_right ⟨fun e => e ▸ hpar, fun hb => ?_⟩
    -- the leaf hangs from one slot only
    obtain ⟨s, -, hs⟩ := pointsTo_unique hr hl hn (leaf_annot hmem)
    have slot : ∀ {b}, ParentOf h (ptr t) (t.nearest Key.bit k).1 b → ∃ d, .child b d = s := by
      rintro b ⟨hb, n, d, hnode, hc⟩
      refine ⟨d, hs _ ⟨.inr ⟨b, d, rfl, hb⟩, _, Heap.load_child (Heap.node_inv hnode) d, ?_⟩⟩
      rw [hc]; rfl
    obtain ⟨d, e⟩ := slot hb
    obtain ⟨d', e'⟩ := slot hpar
    have h1 := e.trans e'.symm
    simp only [Slot.child.injEq] at h1
    exact h1.1

end

/-- **Block ownership** in every reachable state: the live blocks are those of the tree, an insertion
that returns `1` changes nothing at all, a deletion that returns `1` nothing but the locks, and a
deletion that returns `0` frees the leaf of the key and its parent. -/
theorem balanced_reached {root : Addr} {h : Heap} {m : Map} (hr : Reached root h m) :
    ∃ r, h.root root = .ok r ∧ Balanced h root r.head {x | m x ≠ none}.ncard ∧
      (∀ k v mnode mstr, Short k → ∃ ret h', critbitInsert h root k v mnode mstr = .ok (ret, h') ∧
        (ret = 0 ∨ ret = 1 ∧ h' = h)) ∧
      ∀ k, ∃ ret h', critbitDelete h root k = .ok (ret, h') ∧
        (ret = 1 ∧ SameTree root h h' ∨ ret = 0 ∧ ∃ a v, Below h r.head (.str a) ∧
          h.str (.str a) = .ok ⟨v, Key.buf k⟩ ∧
          ∀ b, b ∈ h' ↔ b ∈ h ∧ ¬ (b = a ∨ ParentOf h r.head a b)) := by
  obtain ⟨T, O, rfl⟩ := hr.owns
  obtain ⟨x, hx, hp⟩ := O.record
  have hl := Heap.load_head hx
  refine ⟨x, Heap.root_ok hx, ?_, fun k v mnode mstr hk => ?_, fun k => ?_⟩
  · rw [ncard_bound O.good]
    cases T with
    | none => exact balanced_empty O hp
    | some t => exact balanced_tree O hp (hl.trans (congrArg _ hp))
  · rcases critbitInsert_owns O hk v mnode mstr with ⟨e, -⟩ | ⟨h', T', new, e, -⟩
    · exact ⟨1, h, e, .inr ⟨rfl, rfl⟩⟩
    · exact ⟨0, h', e, .inl rfl⟩
  · rcases critbitDelete_owns O k with ⟨-, h', e, O', -⟩ | ⟨h', T', old, e, D, -, hm⟩
    · exact ⟨1, h', e, .inl ⟨rfl, O.sameTree O'⟩⟩
    · obtain ⟨a, v, ha, hv, hold⟩ := D.blocks O hp hl
      refine ⟨0, h', e, .inr ⟨rfl, a, v, ha, hv, fun b => ?_⟩⟩
      rw [hm, hold]

theorem balanced_two : ∃ (h : Heap) (r : Root) (m : Map), Reached 0 h m ∧ m ⟨[97], by decide⟩ = some 5 ∧
    h.root 0 = .ok r ∧ Balanced h 0 r.head {x | m x ≠ none}.ncard := by
  obtain ⟨h, hr⟩ := reached_two
  obtain ⟨r, hroot, hb, -⟩ := balanced_reached hr
  exact ⟨h, r, _, hr, by decide, hroot, hb⟩

end Critbit

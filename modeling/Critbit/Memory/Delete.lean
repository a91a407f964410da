import Critbit.Memory.Insert

/-!
# `critbit_delete` on a tree in memory

* `deleteInplace_spec`   the critical section: one store takes the leaf of the key out of the tree,
                         together with the node above it (`Unlinked`); a key that is not there
                         changes nothing;
* `victim_leaf`          which child is freed: the leaf of the key, provided that `child[0]`, when
                         it is another leaf, still holds another key (`SiblingOk`);
* `critbitDelete_spec`   the whole function, when nothing else runs.
-/

namespace Critbit
open Crit CTree

variable {h h₁ h' : Heap} {root : Addr} {T T' : Option MTree} {k : Key}

/-! ## the critical section -/

/-- One store has turned `T` into `T'`; `p` is what `critbit_delete_inplace` returns, and `old` are
the blocks it has unlinked. -/
structure Unlinked (h : Heap) (root : Addr) (T : Option MTree) (k : Key) (p : Ptr) (h' : Heap)
    (T' : Option MTree) (old : List Addr) : Prop where
  deleted : Deleted k T T' old
  holds : Holds h' root T'
  slot : (∃ a v, T = some (leaf a k v) ∧ T' = none ∧ p = .str a ∧ old = [a] ∧
      h.store (.head root) .null = .ok h') ∨
    ∃ C g a v, T = some (fill C (node g.a g.i g.c)) ∧ g.c g.d = leaf a k v ∧ g.d = k.bit g.i ∧
      T' = some (fill C (sibling g)) ∧ p = .node g.a ∧ old = [a, g.a] ∧
      h.store (slotAt (.head root) C) (ptr (sibling g)) = .ok h'

theorem deleteInplace_empty (H : Holds h root none) :
    critbitDeleteInplace h root k.buf (int32 (strlen k)) = .ok (.null, h) := by
  obtain ⟨x, hx, hp⟩ := H.record
  have hp' : x.head = .null := hp
  unfold critbitDeleteInplace
  rw [Heap.root_ok hx, ok_bind, if_pos hp']
  rfl

/-- the walk of a deletion on a whole tree, and the comparison behind it -/
theorem deleteInplace_tree {t : MTree} (H : Holds h root (some t)) (k : Key) :
    critbitDeleteInplace h root k.buf (int32 (strlen k)) =
      if (t.nearest Key.bit (seen k)).2.1 ≠ k then .ok (.null, h)
      else
        match t.lastFork Key.bit (seen k) with
        | none => h.store (.head root) .null >>= fun h =>
          pure (.str (t.nearest Key.bit (seen k)).1, h)
        | some (C, g) => h.node g.a >>= fun n =>
          h.store (slotAt (.head root) C) (n.child (!g.d)) >>= fun h => pure (.node g.a, h) := by
  obtain ⟨x, hx, hp⟩ := H.record
  have hp' : x.head = ptr t := hp
  obtain ⟨c, hc, hc0⟩ := strcmp_buf k (t.nearest Key.bit (seen k)).2.1
  unfold critbitDeleteInplace
  rw [Heap.root_ok hx, ok_bind, hp', if_neg (ptr_ne_null t), deleteLoop_rep H, ok_bind]
  simp only [nearest_str (H.rep t rfl), ok_bind, hc]
  by_cases e : (t.nearest Key.bit (seen k)).2.1 = k
  · rw [if_neg (not_not.mpr (hc0.mpr e.symm)), if_neg (not_not.mpr e)]
    cases t.lastFork Key.bit (seen k) with
    | none => rfl
    | some r => rfl
  · rw [if_pos fun e' => e (hc0.mp e').symm, if_pos e]
    rfl

/-- a key that is too long is not stored, and the comparison finds that out -/
theorem deleteInplace_long (H : Holds h root T) (hk : ¬ Short k) :
    critbitDeleteInplace h root k.buf (int32 (strlen k)) = .ok (.null, h) := by
  cases T with
  | none => exact deleteInplace_empty H
  | some t =>
    rw [deleteInplace_tree H]
    apply if_pos
    intro e
    exact hk (e ▸ (H.good t rfl).short _ (nearest_key_mem Key.bit (seen k) t))

/-- **The critical section of a deletion.** -/
theorem deleteInplace_spec (H : Holds h root T) (k : Key) :
    (k ∉ keysOf T ∧ critbitDeleteInplace h root k.buf (int32 (strlen k)) = .ok (.null, h)) ∨
    ∃ p h' T' old, critbitDeleteInplace h root k.buf (int32 (strlen k)) = .ok (p, h') ∧
      Unlinked h root T k p h' T' old := by
  by_cases hk : Short k
  swap
  · exact .inl ⟨fun h1 => hk (short_of_mem H.good h1), deleteInplace_long H hk⟩
  cases T with
  | none => exact .inl ⟨List.not_mem_nil, deleteInplace_empty H⟩
  | some t =>
    have hg := H.good t rfl
    rw [deleteInplace_tree H, hk.seen]
    by_cases e : (t.nearest Key.bit k).2.1 = k
    · right
      rw [if_neg (not_not.mpr e)]
      obtain ⟨x, hx, hp⟩ := H.record
      cases hl : t.lastFork Key.bit k with
      | none =>
        obtain ⟨a, y, v, rfl⟩ := lastFork_none hl
        obtain rfl : y = k := e
        have hst := Heap.store_head hx .null
        refine ⟨.str a, _, none, [a], by simp only [hst]; rfl, .last a v,
          ⟨⟨_, Finmap.lookup_insert _, rfl⟩, fun t ht => (by cases ht), ?_, fun t ht => (by cases ht)⟩,
          .inl ⟨a, v, rfl, rfl, rfl, rfl, hst⟩⟩
        exact List.nodup_singleton root
      | some r =>
        obtain ⟨C, g⟩ := r
        have hdel : Deleted k (some t) _ _ := .pull t C g e hl
        obtain ⟨hfill, hdir, -, hleaf⟩ := lastFork_some hl
        have hrep := H.rep t rfl
        have hnd := H.nodup
        rw [← hfill] at hp hrep hnd
        have hnode := hrep.of_fill.node
        obtain ⟨h', hst, hput⟩ := store_slot hx hp hrep hnd (ptr (sibling g))
        have hsib : Rep h' (sibling g) := (hrep.of_fill.child _).frame fun b hb =>
          Heap.store_frame hst fun e' =>
            slotAt_not_mem hnd (e' ▸ mem_annots_node.mpr (.inr ⟨_, hb⟩))
        obtain ⟨hroot, hrep'⟩ := hput _ rfl hsib
        refine ⟨.node g.a, h', some (fill C (sibling g)), _, ?_, hdel,
          ⟨⟨_, hroot, rfl⟩, ?_, ?_, hdel.good H.good⟩,
          .inr ⟨C, g, _, (t.nearest Key.bit k).2.2, by rw [hfill], ?_, hdir, rfl, rfl, rfl, hst⟩⟩
        · simp only [Heap.node_ok hnode, ok_bind]
          rw [show (nodeOf g.i g.c).child (!g.d) = ptr (sibling g) from rfl, hst]
          rfl
        · rintro u ⟨rfl⟩
          exact hrep'
        · have hperm := ((hdel.annots).cons root).trans List.perm_middle.symm
          exact (List.nodup_append'.mp (hperm.nodup_iff.mp H.nodup)).2.1
        · rw [hleaf, e]
    · left
      rw [if_pos e]
      exact ⟨fun hmem => e (nearest_of_mem hg.wf hmem), rfl⟩

/-- `child[0]` of the node is a node, or a leaf that holds another key -/
def SiblingOk (h : Heap) (k : Key) (n : Node) : Prop :=
  (∃ b, n.child false = .node b) ∨ ∃ b x w, n.child false = .str b ∧
    h.lookup b = some (.str ⟨w, Key.buf x⟩) ∧ x ≠ k

namespace Unlinked
variable {p : Ptr} {old : List Addr}

theorem nodup (U : Unlinked h root T k p h' T' old) (H : Holds h root T) :
    (old ++ root :: annotsOf T').Nodup := by
  have hperm := (U.deleted.annots.cons root).trans List.perm_middle.symm
  exact hperm.nodup_iff.mp H.nodup

/-- the store goes to a block that stays in the tree -/
theorem store (U : Unlinked h root T k p h' T' old) :
    ∃ s q, h.store s q = .ok h' ∧ s.addr ∈ root :: annotsOf T' := by
  rcases U.slot with ⟨a, v, rfl, rfl, rfl, rfl, hst⟩ |
    ⟨C, g, a, v, rfl, hl, hdir, rfl, rfl, rfl, hst⟩
  · exact ⟨_, _, hst, List.mem_cons_self⟩
  · exact ⟨_, _, hst, slotAt_addr_mem root C _⟩

/-- blocks outside the new tree are not written -/
theorem frame (U : Unlinked h root T k p h' T' old) {b : Addr} (hb : b ∉ root :: annotsOf T') :
    h'.lookup b = h.lookup b := by
  obtain ⟨s, q, hst, hs⟩ := U.store
  exact Heap.store_frame hst fun e => hb (e ▸ hs)

theorem mem_iff (U : Unlinked h root T k p h' T' old) {b : Addr} : b ∈ h' ↔ b ∈ h := by
  obtain ⟨s, q, hst, -⟩ := U.store
  exact Heap.store_mem hst

/-- the unlinked blocks as they are in the heap after the store -/
theorem blocks (U : Unlinked h root T k p h' T' old) (H : Holds h root T) :
    ∃ a v, h'.lookup a = some (.str ⟨v, k.buf⟩) ∧ (∃ t, T = some t ∧ (a, k, v) ∈ t.leaves) ∧
      (p = .str a ∧ old = [a] ∨ ∃ b n d, p = .node b ∧ old = [a, b] ∧
        h'.lookup b = some (.node n) ∧ n.child d = .str a ∧ (d = true → SiblingOk h' k n)) := by
  have hout : ∀ b ∈ old, h'.lookup b = h.lookup b := fun b hb =>
    U.frame fun hb' => List.disjoint_of_nodup_append (U.nodup H) hb hb'
  have hnew := U.holds
  rcases U.slot with ⟨a, v, rfl, rfl, rfl, rfl, hst⟩ |
    ⟨C, g, a, v, rfl, hl, hdir, rfl, rfl, rfl, hst⟩
  · exact ⟨a, v, (hout a (by simp)).trans (H.rep _ rfl), ⟨_, rfl, List.mem_cons_self⟩,
      .inl ⟨rfl, rfl⟩⟩
  · have hrep := (H.rep _ rfl).of_fill
    have hw := (H.good _ rfl).wf.of_fill
    have hleaf := hrep.child g.d
    have hmem : (a, k, v) ∈ (node g.a g.i g.c).leaves :=
      mem_leaves_node.mpr ⟨g.d, hl ▸ List.mem_cons_self⟩
    rw [hl] at hleaf
    refine ⟨a, v, (hout a (by simp)).trans hleaf, ⟨_, rfl, mem_leaves_fill.mpr (.inl hmem)⟩,
      .inr ⟨g.a, nodeOf g.i g.c, g.d, rfl, rfl, (hout g.a (by simp)).trans hrep.node, ?_, ?_⟩⟩
    · show ptr (g.c g.d) = _
      rw [hl]; rfl
    · intro hd
      have hside := hw.forks.side (!g.d)
      have hsib : Rep h' (g.c (!g.d)) := (hnew.rep _ rfl).of_fill
      show (∃ b, ptr (g.c false) = _) ∨ ∃ b x w, ptr (g.c false) = _ ∧ _
      rw [hd, Bool.not_true] at hside hsib
      generalize g.c false = u at hside hsib
      cases u with
      | node b j e => exact .inl ⟨b, rfl⟩
      | leaf b x w =>
        refine .inr ⟨b, x, w, rfl, hsib, ?_⟩
        rintro rfl
        have h1 := hside x List.mem_cons_self
        rw [← hdir, hd] at h1
        cases h1

end Unlinked

/-! ## freeing what has been unlinked -/

/-- the leaf of the key is the one that is freed -/
theorem victim_leaf {n : Node} {d : Bool} {a : Addr} {v : Val} (hc : n.child d = .str a)
    (ha : h.lookup a = some (.str ⟨v, k.buf⟩))
    (hs : d = true → SiblingOk h k n) : victim h k.buf n = .ok (.str a) := by
  have self : ∀ b x w, n.child false = .str b → h.lookup b = some (.str ⟨w, Key.buf x⟩) →
      victim h k.buf n = .ok (if x = k then .str b else n.child true) := by
    intro b x w e hlook
    obtain ⟨r, hr, hr0⟩ := strcmp_buf k x
    unfold victim
    rw [e]
    simp only [Heap.str_ok hlook, ok_bind, hr]
    by_cases e' : x = k
    · rw [if_pos (hr0.mpr e'.symm), if_pos e']; rfl
    · rw [if_neg fun e1 => e' (hr0.mp e1).symm, if_neg e']; rfl
  cases d with
  | false => rw [self a k v hc ha, if_pos rfl]
  | true =>
    rcases hs rfl with ⟨b, e⟩ | ⟨b, x, w, e, hlook, hne⟩
    · unfold victim
      rw [e]
      exact congrArg _ hc
    · rw [self b x w e hlook, if_neg hne, hc]

/-- the locks in the root record do not matter for the tree -/
theorem Holds.locks (H : Holds h root T) {x : Root} (hx : h'.lookup root = some (.root x))
    (hp : x.head = ptrOf T) (hf : ∀ b, b ≠ root → h'.lookup b = h.lookup b) :
    Holds h' root T where
  record := ⟨x, hx, hp⟩
  rep t ht := by
    obtain rfl := ht
    exact (H.rep t rfl).frame fun b hb => hf b fun e => (List.nodup_cons.mp H.nodup).1 (e ▸ hb)
  nodup := H.nodup
  good := H.good

/-- a write of the locks in the root record -/
theorem Holds.relock (H : Holds h root T) {x y : Root} (hx : h.lookup root = some (.root x))
    (hy : y.head = x.head) :
    (∀ b, b ≠ root → Finmap.lookup b (h.insert root (.root y)) = h.lookup b) ∧
      Holds (h.insert root (.root y)) root T := by
  obtain ⟨x', hx', hp⟩ := H.record
  cases hx.symm.trans hx'
  have hf : ∀ b, b ≠ root → Finmap.lookup b (h.insert root (.root y)) = h.lookup b :=
    fun b hb => Finmap.lookup_insert_of_ne _ hb
  exact ⟨hf, H.locks (Finmap.lookup_insert _) (hy.trans hp) hf⟩

/-- both exchanges of the locks succeed -/
theorem swapLocks (H : Holds h root T) :
    ∃ x h₁ h₂, h.root root = .ok x ∧ casCur h root x.cur x.prev = .ok h₁ ∧
      casPrev h₁ root x.prev x.cur = .ok h₂ ∧ (∀ b, b ≠ root → h₂.lookup b = h.lookup b) ∧
      Holds h₂ root T := by
  obtain ⟨x, hx, -⟩ := H.record
  have h1 : casCur h root x.cur x.prev = .ok (h.insert root (.root { x with cur := x.prev })) := by
    unfold casCur
    rw [Heap.root_ok hx, ok_bind, if_pos rfl]
    rfl
  have hx₁ : Finmap.lookup root (h.insert root (.root { x with cur := x.prev })) =
      some (.root { x with cur := x.prev }) := Finmap.lookup_insert _
  refine ⟨x, _, h.insert root (.root ⟨x.head, x.prev, x.cur⟩), Heap.root_ok hx, h1, ?_,
    H.relock hx rfl⟩
  unfold casPrev
  rw [Heap.root_ok hx₁, ok_bind, if_pos rfl, Finmap.insert_insert]
  rfl

/-- what has been unlinked is what is freed, when the blocks are as the critical section left them -/
theorem reclaim_unlinked {p : Ptr} {old : List Addr} (H : Holds h root T)
    (U : Unlinked h root T k p h₁ T' old) (hf : ∀ b, b ≠ root → h'.lookup b = h₁.lookup b) :
    ∃ h'', reclaim h' k.buf p = .ok h'' ∧ (∀ b, b ∉ old → h''.lookup b = h'.lookup b) ∧
      ∀ b ∈ old, b ∉ h'' := by
  have hroot : ∀ b ∈ old, b ≠ root := fun b hb e =>
    List.disjoint_of_nodup_append (U.nodup H) hb (e ▸ List.mem_cons_self)
  have hnd := (List.nodup_append'.mp (U.nodup H)).1
  obtain ⟨a, v, ha, -, ⟨rfl, rfl⟩ | ⟨b, n, d, rfl, rfl, hb, hc, hs⟩⟩ := U.blocks H
  · have ha' := (hf a (hroot a (by simp))).trans ha
    refine ⟨_, Heap.free_ok (Heap.mem_of_lookup ha'), fun b hb => ?_, fun b hb => ?_⟩
    · exact Finmap.lookup_erase_ne fun e => hb (by simp [e])
    · rw [List.mem_singleton.mp hb]
      exact Finmap.notMem_erase_self
  · have hab : b ≠ a := by simpa [eq_comm] using hnd
    have ha' := (hf a (hroot a (by simp))).trans ha
    have hb' := (hf b (hroot b (by simp))).trans hb
    have hv : victim h' k.buf n = .ok (.str a) := by
      refine victim_leaf hc ha' fun hd => (hs hd).imp id ?_
      rintro ⟨c, x, w, e, hlook, hne⟩
      obtain ⟨y, hy, -⟩ := U.holds.record
      have hcr : c ≠ root := by
        rintro rfl
        cases hlook.symm.trans hy
      exact ⟨c, x, w, e, (hf c hcr).trans hlook, hne⟩
    have hbe : b ∈ Finmap.erase a h' :=
      Finmap.mem_erase.mpr ⟨hab, Heap.mem_of_lookup hb'⟩
    refine ⟨(Finmap.erase a h').erase b, ?_, fun e he => ?_, fun e he => ?_⟩
    · unfold reclaim
      simp only [Heap.node_ok hb', ok_bind, hv]
      rw [show freeString h' (.str a) = h'.free a from rfl,
        Heap.free_ok (Heap.mem_of_lookup ha'), ok_bind, Heap.free_ok hbe]
    · have h1 : e ≠ b := fun e' => he (by simp [e'])
      have h2 : e ≠ a := fun e' => he (by simp [e'])
      rw [Finmap.lookup_erase_ne h1, Finmap.lookup_erase_ne h2]
    · intro hm
      obtain ⟨h1, h2⟩ := Finmap.mem_erase.mp hm
      rcases List.mem_pair.mp he with rfl | rfl
      · exact (Finmap.mem_erase.mp h2).1 rfl
      · exact h1 rfl

/-- **`critbit_delete`**: it returns `1` and leaves the tree alone if the key is not there; else it
returns `0`, the new tree lacks the key, and what was unlinked is freed. -/
theorem critbitDelete_spec (H : Holds h root T) (k : Key) :
    (k ∉ keysOf T ∧ ∃ h', critbitDelete h root k = .ok (1, h') ∧ Holds h' root T ∧
      ∀ b, b ≠ root → h'.lookup b = h.lookup b) ∨
    ∃ h' T' old, critbitDelete h root k = .ok (0, h') ∧ Deleted k T T' old ∧ Holds h' root T' ∧
      ∀ b, b ∈ h' ↔ b ∈ h ∧ b ∉ old := by
  unfold critbitDelete
  rcases deleteInplace_spec H k with ⟨hnot, e⟩ | ⟨p, h₁, T', old, e, U⟩
  · left
    obtain ⟨x, h₁, h₂, hx, hcur, hprev, hf, H'⟩ := swapLocks H
    rw [e, ok_bind]
    simp only [hx, ok_bind, hcur, hprev]
    exact ⟨hnot, h₂, rfl, H', hf⟩
  · right
    obtain ⟨x, h₂, h₃, hx, hcur, hprev, hf, H₃⟩ := swapLocks U.holds
    have hnull : p ≠ .null := by
      rintro rfl
      obtain ⟨a, v, -, -, ⟨e', -⟩ | ⟨b, n, d, e', -⟩⟩ := U.blocks H <;> cases e'
    obtain ⟨h₄, hr, hfr, hgone⟩ := reclaim_unlinked H U hf
    rw [e, ok_bind]
    simp only [hx, ok_bind, hcur, hprev, if_neg hnull, hr]
    refine ⟨h₄, T', old, rfl, U.deleted, H₃.frame fun b hb => ?_, fun b => ?_⟩
    · exact hfr b fun hb' => List.disjoint_of_nodup_append (U.nodup H) hb' hb
    · by_cases hb : b ∈ old
      · exact iff_of_false (hgone b hb) fun h1 => h1.2 hb
      · have h3 : b ∈ h₃ ↔ b ∈ h := by
          rw [← U.mem_iff]
          by_cases e1 : b = root
          · subst e1
            exact iff_of_true (H₃.mem List.mem_cons_self) (U.holds.mem List.mem_cons_self)
          · rw [Finmap.mem_iff, hf b e1, ← Finmap.mem_iff (s := h₁)]
        rw [Finmap.mem_iff, hfr b hb, ← Finmap.mem_iff (s := h₃), h3]
        exact ⟨fun h1 => ⟨h1, hb⟩, fun h1 => h1.1⟩

end Critbit

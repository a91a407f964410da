import Critbit.Source.Ops
import Critbit.Trie.Splice

/-!
# Trees in memory

A tree whose annotations are addresses (`MTree`) describes blocks: a leaf the string block of its
key and value, a fork at position `i` a node with `byte = i / 8` and `otherbits = mask (i % 8)`.

* `Rep h t`          these blocks are what the heap holds at these addresses;
* `Good t`           `t` is well formed for the bits of keys and its keys are short;
* `Holds h root T`   `root` is a root record whose `head` is the tree `T` (`none`: empty), all
                     blocks distinct; other blocks may be live too;
* `Owns h root T`    no other block is live.

`slotAt` is the `void **` at the end of a list of frames, and `store_slot` says what a store
through it does: it puts another tree into the hole.
-/

namespace Critbit
open Crit CTree

/-- keys for which the narrowing of lengths to `int` and the additions to them are exact -/
def Short (k : Key) : Prop := strlen k < 2147483647

instance (k : Key) : Decidable (Short k) := inferInstanceAs (Decidable (strlen k < 2147483647))

theorem Short.int32 {k : Key} (h : Short k) : int32 (strlen k) = strlen k :=
  int32_of_lt (by unfold Short at h; omega)

theorem Short.sizeT {k : Key} (h : Short k) : sizeT (strlen k) = strlen k :=
  sizeT_of_lt (by unfold Short at h; omega)

abbrev MTree := CTree Addr Nat Key Val

/-- the pointer to a tree -/
def ptr : MTree → Ptr
  | leaf a _ _ => .str a
  | node a _ _ => .node a

/-- the node of a fork -/
def nodeOf (i : Nat) (c : Bool → MTree) : Node :=
  ⟨fun d => ptr (c d), (i / 8 : Nat), mask (i % 8)⟩

def Rep (h : Heap) : MTree → Prop
  | leaf a k v => h.lookup a = some (.str ⟨v, k.buf⟩)
  | node a i c => h.lookup a = some (.node (nodeOf i c)) ∧ ∀ d, Rep h (c d)

theorem Rep.node {h : Heap} {a : Addr} {i : Nat} {c : Bool → MTree} (hr : Rep h (node a i c)) :
    h.lookup a = some (.node (nodeOf i c)) := hr.1

theorem Rep.child {h : Heap} {a : Addr} {i : Nat} {c : Bool → MTree} (hr : Rep h (.node a i c))
    (d : Bool) : Rep h (c d) := hr.2 d

/-- only the blocks of the tree matter -/
theorem Rep.frame {h h' : Heap} {t : MTree} (hr : Rep h t)
    (hf : ∀ b ∈ t.annots, h'.lookup b = h.lookup b) : Rep h' t := by
  induction t with
  | leaf a k v => exact (hf a List.mem_cons_self).trans hr
  | node a i c ih =>
    refine ⟨(hf a List.mem_cons_self).trans hr.node, fun d => ?_⟩
    exact ih d (hr.child d) fun b hb => hf b (mem_annots_node.mpr (.inr ⟨d, hb⟩))

theorem Rep.mem {h : Heap} {t : MTree} (hr : Rep h t) {b : Addr} (hb : b ∈ t.annots) : b ∈ h := by
  induction t with
  | leaf a k v =>
    rw [annots, List.mem_singleton] at hb
    exact Heap.mem_of_lookup (hb ▸ hr)
  | node a i c ih =>
    rcases mem_annots_node.mp hb with rfl | ⟨d, hd⟩
    · exact Heap.mem_of_lookup hr.node
    · exact ih d (hr.child d) hd

theorem Rep.leaf {h : Heap} {t : MTree} (hr : Rep h t) {l : Addr × Key × Val}
    (hl : l ∈ t.leaves) : h.lookup l.1 = some (.str ⟨l.2.2, l.2.1.buf⟩) := by
  induction t with
  | leaf a k v =>
    rw [leaves_leaf, List.mem_singleton] at hl
    rw [hl]; exact hr
  | node a i c ih =>
    obtain ⟨d, hd⟩ := mem_leaves_node.mp hl
    exact ih d (hr.child d) hd

/-- the heap determines the tree -/
theorem Rep.unique {h : Heap} {s t : MTree} (hs : Rep h s) (ht : Rep h t) (hp : ptr s = ptr t) :
    s = t := by
  induction s generalizing t with
  | leaf a k v =>
    cases t with
    | node b j c => cases hp
    | leaf b k' v' =>
      cases hp
      have e := hs.symm.trans ht
      simp only [Option.some.injEq, Block.str.injEq, Str.mk.injEq] at e
      rw [e.1, Key.buf_inj e.2]
  | node a i c ih =>
    cases t with
    | leaf b k' v' => cases hp
    | node b j c' =>
      cases hp
      have e := hs.node.symm.trans ht.node
      simp only [Option.some.injEq, Block.node.injEq, nodeOf, Node.mk.injEq] at e
      obtain ⟨hc, hb, hm⟩ := e
      have hij : i = j := by
        have h1 := mask_inj (Nat.mod_lt _ (by decide)) (Nat.mod_lt _ (by decide)) hm
        omega
      have hcc : c = c' := funext fun d => ih d (hs.child d) (ht.child d) (congrFun hc d)
      rw [hij, hcc]

/-! ## good trees -/

structure Good (t : MTree) : Prop where
  wf : t.WF Key.bit
  short : ∀ x ∈ t.keys, Short x

theorem Good.child {a : Addr} {i : Nat} {c : Bool → MTree} (h : Good (node a i c)) (d : Bool) :
    Good (c d) := ⟨h.wf.child d, fun x hx => h.short x (mem_keys_node.mpr ⟨d, hx⟩)⟩

/-- no node tests a byte behind the end of a key below it -/
theorem Good.byte_le {a : Addr} {i : Nat} {c : Bool → MTree} (h : (node a i c : MTree).WF Key.bit)
    {x : Key} (hx : x ∈ (node a i c).keys) : i / 8 ≤ strlen x := by
  obtain ⟨y, hy, z, hz, hne⟩ := h.exists_sides
  -- one of the two differs from `x` at `i`
  by_cases e : Key.bit x i = Key.bit y i
  · exact Key.firstDiff_le ⟨h.agree hx hz, fun e' => hne (e.symm.trans e')⟩
  · exact Key.firstDiff_le ⟨h.agree hx hy, e⟩

theorem Good.byte_lt {a : Addr} {i : Nat} {c : Bool → MTree} (h : Good (node a i c)) :
    i / 8 < 2147483647 := by
  obtain ⟨x, hx⟩ := exists_key (node a i c)
  exact lt_of_le_of_lt (Good.byte_le h.wf hx) (h.short x hx)

/-! ## the root and its tree -/

def ptrOf (T : Option MTree) : Ptr := T.elim .null ptr
def annotsOf (T : Option MTree) : List Addr := T.elim [] annots
def keysOf (T : Option MTree) : List Key := T.elim [] keys

/-- the map that a tree stands for -/
def bindsOf (T : Option MTree) : List (Key × Val) := T.elim [] binds

theorem short_of_mem {T : Option MTree} (hT : ∀ t ∈ T, Good t) {k : Key} (hk : k ∈ keysOf T) :
    Short k := by
  cases T with
  | none => exact absurd hk List.not_mem_nil
  | some t => exact (hT t rfl).short k hk

structure Holds (h : Heap) (root : Addr) (T : Option MTree) : Prop where
  record : ∃ x, h.lookup root = some (.root x) ∧ x.head = ptrOf T
  rep : ∀ t ∈ T, Rep h t
  nodup : (root :: annotsOf T).Nodup
  good : ∀ t ∈ T, Good t

structure Owns (h : Heap) (root : Addr) (T : Option MTree) : Prop extends Holds h root T where
  live : ∀ b, b ∈ h ↔ b ∈ root :: annotsOf T

theorem Holds.mem {h : Heap} {root : Addr} {T : Option MTree} (H : Holds h root T) {b : Addr}
    (hb : b ∈ root :: annotsOf T) : b ∈ h := by
  rcases List.mem_cons.mp hb with rfl | e
  · obtain ⟨x, hx, -⟩ := H.record
    exact Heap.mem_of_lookup hx
  · cases T with
    | none => exact absurd e List.not_mem_nil
    | some t => exact (H.rep t rfl).mem e

/-- other blocks of the heap do not matter -/
theorem Holds.frame {h h' : Heap} {root : Addr} {T : Option MTree} (H : Holds h root T)
    (hf : ∀ b ∈ root :: annotsOf T, h'.lookup b = h.lookup b) : Holds h' root T where
  record := by
    obtain ⟨x, hx, hp⟩ := H.record
    exact ⟨x, (hf root List.mem_cons_self).trans hx, hp⟩
  rep t ht := by
    obtain rfl := ht
    exact (H.rep t rfl).frame fun b hb => hf b (List.mem_cons_of_mem _ hb)
  nodup := H.nodup
  good := H.good

theorem ptr_ne_null (t : MTree) : ptr t ≠ .null := by
  cases t <;> exact fun e => by cases e

theorem ptrOf_null {T : Option MTree} : ptrOf T = .null ↔ T = none := by
  cases T with
  | none => exact ⟨fun _ => rfl, fun _ => rfl⟩
  | some t => exact ⟨fun e => absurd e (ptr_ne_null t), fun e => by cases e⟩

/-- the tree at a root is unique -/
theorem Holds.unique {h : Heap} {root : Addr} {S T : Option MTree} (H : Holds h root S)
    (H' : Holds h root T) : S = T := by
  obtain ⟨x, hx, hp⟩ := H.record
  obtain ⟨y, hy, hq⟩ := H'.record
  have e : ptrOf S = ptrOf T := by
    have h1 := hx.symm.trans hy
    simp only [Option.some.injEq, Block.root.injEq] at h1
    rw [← hp, ← hq, h1]
  cases S with
  | none => exact (ptrOf_null.mp e.symm).symm
  | some s =>
    cases T with
    | none => exact absurd e (ptr_ne_null s)
    | some t => exact congrArg some ((H.rep s rfl).unique (H'.rep t rfl) e)

/-- a tree has at most as many forks as there are live blocks -/
theorem Holds.forks_lt {h : Heap} {root : Addr} {t : MTree} (H : Holds h root (some t)) :
    t.forks < h.size := by
  have hsub : (root :: annotsOf (some t)).toFinset ⊆ h.keys := by
    intro b hb
    exact Finmap.mem_keys.mpr (H.mem (List.mem_toFinset.mp hb))
  have hc := Finset.card_le_card hsub
  have hl : (annotsOf (some t)).length = t.keys.length + t.forks := length_annots t
  rw [List.toFinset_card_of_nodup H.nodup, List.length_cons, hl] at hc
  unfold Heap.size
  omega

/-! ## slots and the hole of a tree -/

/-- the slot at the end of a path that starts at the slot `s` -/
def slotAt (s : Slot) : List (Frame Addr Nat Key Val) → Slot
  | [] => s
  | f :: C => slotAt (.child f.a f.d) C

theorem slotAt_nil (s : Slot) : slotAt s [] = s := rfl
theorem slotAt_cons (s : Slot) (f : Frame Addr Nat Key Val) (C : List (Frame Addr Nat Key Val)) :
    slotAt s (f :: C) = slotAt (.child f.a f.d) C := rfl

theorem slotAt_concat (s : Slot) (C : List (Frame Addr Nat Key Val)) (f : Frame Addr Nat Key Val) :
    slotAt s (C ++ [f]) = .child f.a f.d := by
  induction C generalizing s with
  | nil => rfl
  | cons g C ih => exact ih _

theorem slotAt_addr (root : Addr) (C : List (Frame Addr Nat Key Val)) :
    (slotAt (.head root) C).addr ∈ root :: ctxAnnots C := by
  rcases List.eq_nil_or_concat C with rfl | ⟨D, f, rfl⟩
  · exact List.mem_cons_self
  · rw [List.concat_eq_append, slotAt_concat]
    exact List.mem_cons_of_mem _ (frame_annot (by simp))

theorem slotAt_addr_mem (root : Addr) (C : List (Frame Addr Nat Key Val)) (t : MTree) :
    (slotAt (.head root) C).addr ∈ root :: (fill C t).annots := by
  rcases List.mem_cons.mp (slotAt_addr root C) with e | e
  · rw [e]; exact List.mem_cons_self
  · exact List.mem_cons_of_mem _ (mem_annots_fill.mpr (.inr e))

/-- the slot does not lie in what hangs from it -/
theorem slotAt_not_mem {root : Addr} {C : List (Frame Addr Nat Key Val)} {t : MTree}
    (hn : (root :: (fill C t).annots).Nodup) : (slotAt (.head root) C).addr ∉ t.annots := by
  have hp : (root :: (fill C t).annots).Perm (t.annots ++ root :: ctxAnnots C) :=
    ((annots_fill C t).cons root).trans List.perm_middle.symm
  exact fun h => List.disjoint_of_nodup_append (hp.nodup_iff.mp hn) h (slotAt_addr root C)

theorem Rep.of_fill {h : Heap} {C : List (Frame Addr Nat Key Val)} {t : MTree}
    (hr : Rep h (fill C t)) : Rep h t := by
  induction C with
  | nil => exact hr
  | cons f C ih =>
    have h1 := hr.child f.d
    rw [update_self] at h1
    exact ih h1

/-- the node of a fork whose hole is filled -/
theorem nodeOf_update (i : Nat) (c : Bool → MTree) (d : Bool) (u : MTree) :
    nodeOf i (Function.update c d u) =
      { nodeOf i c with child := Function.update (nodeOf i c).child d (ptr u) } := by
  unfold nodeOf
  congr 1
  funext e
  exact Function.apply_update (fun _ => ptr) c d u e

/-- another tree in the hole, with the same pointer to it -/
theorem Rep.refill {h h' : Heap} {C : List (Frame Addr Nat Key Val)} {t u : MTree}
    (hr : Rep h (fill C t)) (hf : ∀ b ∈ ctxAnnots C, h'.lookup b = h.lookup b)
    (hp : ptr u = ptr t) (hu : Rep h' u) : Rep h' (fill C u) ∧ ptr (fill C u) = ptr (fill C t) := by
  induction C with
  | nil => exact ⟨hu, hp⟩
  | cons f C ih =>
    have hin := hr.child f.d
    rw [update_self] at hin
    have hsib := hr.child (!f.d)
    rw [update_sibling] at hsib
    have hmem : ∀ b, b = f.a ∨ b ∈ (sibling f).annots ∨ b ∈ ctxAnnots C → b ∈ ctxAnnots (f :: C) := by
      intro b hb
      unfold ctxAnnots at hb ⊢
      rw [List.flatMap_cons, List.mem_append, List.mem_cons, or_assoc]
      exact hb
    obtain ⟨h1, h2⟩ := ih hin fun b hb => hf b (hmem b (.inr (.inr hb)))
    refine ⟨⟨?_, fun d => ?_⟩, rfl⟩
    · rw [hf f.a (hmem _ (.inl rfl)), hr.node, nodeOf_update, nodeOf_update, h2]
    · by_cases e : d = f.d
      · rw [e, update_self]; exact h1
      · rw [Bool.eq_not_of_ne e, update_sibling]
        exact hsib.frame fun b hb => hf b (hmem b (.inr (.inl hb)))

/-- **A store through a slot of the tree puts another tree into the hole.** -/
theorem store_slot {h : Heap} {root : Addr} {x : Root} {C : List (Frame Addr Nat Key Val)}
    {t : MTree} (hx : h.lookup root = some (.root x)) (hp : x.head = ptr (fill C t))
    (hr : Rep h (fill C t)) (hn : (root :: (fill C t).annots).Nodup) (p : Ptr) :
    ∃ h', h.store (slotAt (.head root) C) p = .ok h' ∧
      ∀ u, ptr u = p → Rep h' u →
        h'.lookup root = some (.root { x with head := ptr (fill C u) }) ∧ Rep h' (fill C u) := by
  rcases List.eq_nil_or_concat C with rfl | ⟨D, f, rfl⟩
  · refine ⟨_, Heap.store_head hx p, fun u hu hru => ⟨?_, hru⟩⟩
    rw [Finmap.lookup_insert, fill_nil, hu]
  · rw [List.concat_eq_append, slotAt_concat]
    rw [List.concat_eq_append] at hp hr hn
    rw [fill_append, fill_cons, fill_nil] at hp hr hn
    have hf : Rep h (node f.a f.i (Function.update f.c f.d t)) := hr.of_fill
    refine ⟨_, Heap.store_child hf.node f.d p, fun u hu hru => ?_⟩
    set h' : Heap := h.insert f.a (.node { nodeOf f.i (Function.update f.c f.d t) with
      child := Function.update (nodeOf f.i (Function.update f.c f.d t)).child f.d p }) with hh'
    have hfr : ∀ b, b ≠ f.a → h'.lookup b = h.lookup b := fun b hb =>
      Finmap.lookup_insert_of_ne _ hb
    -- all blocks are distinct, so the other parts of the tree are not written
    obtain ⟨hroot, hnd⟩ := List.nodup_cons.mp hn
    have hperm := (annots_fill D (node f.a f.i (Function.update f.c f.d t))).nodup_iff.mp hnd
    have hdisj := List.disjoint_of_nodup_append hperm
    have hfn : (node f.a f.i (Function.update f.c f.d t)).annots.Nodup :=
      (List.nodup_append'.mp hperm).1
    have hfa := List.nodup_cons.mp ((annots_perm f.a f.i _ f.d).nodup_iff.mp hfn)
    rw [update_self, update_sibling] at hfa
    have hnew : Rep h' (node f.a f.i (Function.update f.c f.d u)) := by
      refine ⟨?_, fun d => ?_⟩
      · rw [hh', Finmap.lookup_insert, nodeOf_update, nodeOf_update, hu]
        simp only [Function.update_idem]
      · by_cases e : d = f.d
        · rw [e, update_self]; exact hru
        · have hsib := hf.child (!f.d)
          rw [update_sibling] at hsib
          rw [Bool.eq_not_of_ne e, update_sibling]
          refine hsib.frame fun b hb => hfr b fun e' => hfa.1 ?_
          exact List.mem_append_right _ (e' ▸ hb)
    have hctx : ∀ b ∈ ctxAnnots D, h'.lookup b = h.lookup b := fun b hb =>
      hfr b fun e => hdisj (top_mem (node f.a f.i _)) (show f.a ∈ ctxAnnots D from e ▸ hb)
    obtain ⟨h1, h2⟩ := hr.refill hctx (u := node f.a f.i (Function.update f.c f.d u)) rfl hnew
    refine ⟨?_, by rw [fill_append]; exact h1⟩
    have hra : root ≠ f.a := fun e => hroot (mem_annots_fill.mpr (.inl (e ▸ top_mem (node f.a f.i _))))
    rw [hfr root hra, hx, fill_append, fill_cons, fill_nil, h2, ← hp]

end Critbit

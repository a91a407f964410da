import Critbit.Run.Refine
import Critbit.Memory.Reach

/-!
# The crit-bit invariant, read off the heap

`CritbitTree h head` speaks of pointers, nodes and characters only.  It follows from the abstract
invariant of `Critbit.Trie` field by field, so it holds in every reachable state
(`critbitTree_reached`).
-/

namespace Critbit
open Crit CTree

structure CritbitTree (h : Heap) (head : Ptr) : Prop where
  /-- both children are there, and one bit of `0xFF` is cleared -/
  node : ∀ a, Below h head (.node a) → ∃ n, h.node a = .ok n ∧ (∀ d, n.child d ≠ .null) ∧
    ∃ i < 8, n.otherbits = mask i
  /-- what is not a node is a leaf with a terminated key -/
  leaf : ∀ a, Below h head (.str a) → ∃ k v, h.str (.str a) = .ok ⟨v, Key.buf k⟩
  /-- positions increase strictly along every path -/
  increasing : ∀ a b n n', Below h head (.node a) → StrictlyBelow h (.node a) (.node b) →
    h.node a = .ok n → h.node b = .ok n' →
    n.byte < n'.byte ∨ n.byte = n'.byte ∧ n.otherbits < n'.otherbits
  /-- every leaf is on the side of its direction -/
  direction : ∀ a n d s k v, Below h head (.node a) → h.node a = .ok n →
    Below h (n.child d) (.str s) → h.str (.str s) = .ok ⟨v, Key.buf k⟩ →
    getDirection n k.buf (sizeT (int32 (strlen k))) = .ok d
  /-- the leaves below a node agree on the bytes before `byte`, and on the bits of that byte before
  the one that is cleared in `otherbits`; bits are counted from the most significant one -/
  agree : ∀ a n s s' k k' v v', Below h head (.node a) → h.node a = .ok n →
    Below h (.node a) (.str s) → h.str (.str s) = .ok ⟨v, Key.buf k⟩ →
    Below h (.node a) (.str s') → h.str (.str s') = .ok ⟨v', Key.buf k'⟩ →
    ∃ b i : Nat, n.byte = b ∧ i < 8 ∧ n.otherbits = mask i ∧
      (∀ j < b, k.byteAt j = k'.byteAt j) ∧ ∀ j < i, bitOf (k.byteAt b) j = bitOf (k'.byteAt b) j
  /-- no key is in two leaves -/
  unique : ∀ s s' k v v', Below h head (.str s) → Below h head (.str s') →
    h.str (.str s) = .ok ⟨v, Key.buf k⟩ → h.str (.str s') = .ok ⟨v', Key.buf k⟩ → s = s'

section
variable {h : Heap} {t : MTree}

/-- a leaf that is reached, with the key that its block holds -/
theorem leaf_of_below (hr : Rep h t) {s : Addr} {k : Key} {v : Val}
    (hs : Below h (ptr t) (.str s)) (hk : h.str (.str s) = .ok ⟨v, k.buf⟩) :
    (s, k, v) ∈ t.leaves := by
  obtain ⟨k', v', hl, e⟩ := below_str hr hs
  rw [hk] at e
  simp only [Except.ok.injEq, Str.mk.injEq] at e
  rw [e.1, Key.buf_inj e.2]
  exact hl

/-- the fork of a node that is reached -/
theorem fork_of_below (hr : Rep h t) {a : Addr} {n : Node} (hb : Below h (ptr t) (.node a))
    (hn : h.node a = .ok n) : ∃ i c, Sub (.node a i c) t ∧ n = nodeOf i c := by
  obtain ⟨i, c, hs, e⟩ := below_node hr hb
  rw [hn, Except.ok.injEq] at e
  exact ⟨i, c, hs, e⟩

theorem Good.sub {u : MTree} (hg : Good t) (hs : Sub u t) : Good u :=
  ⟨hs.wf hg.wf, fun x hx => hg.short x (hs.keys hx)⟩

theorem critbitTree_of_rep (hr : Rep h t) (hg : Good t) : CritbitTree h (ptr t) where
  node a ha := by
    obtain ⟨i, c, -, e⟩ := below_node hr ha
    exact ⟨_, e, fun d => ptr_ne_null (c d), i % 8, Nat.mod_lt _ (by decide), rfl⟩
  leaf a ha := by
    obtain ⟨k, v, -, e⟩ := below_str hr ha
    exact ⟨k, v, e⟩
  increasing a b n n' ha hb hn hn' := by
    obtain ⟨i, c, hs, rfl⟩ := fork_of_below hr ha hn
    obtain ⟨a', i', c', d, u, e, hu, e'⟩ := (strictlyBelow_iff (hr.sub hs)).mp hb
    cases e
    cases u with
    | leaf s k v => cases e'
    | node b' j c'' =>
      cases e'
      have hnode := Heap.node_ok (((hr.sub hs).child d).sub hu).node
      rw [hnode, Except.ok.injEq] at hn'
      subst hn'
      rcases (pos_lt_iff i j).mp ((hs.wf hg.wf).lt_sub hu) with h1 | ⟨h1, h2⟩
      · exact .inl (Int.ofNat_lt.mpr h1)
      · exact .inr ⟨congrArg Nat.cast h1, h2⟩
  direction a n d s k v ha hn hs hk := by
    obtain ⟨i, c, hsub, rfl⟩ := fork_of_below hr ha hn
    have hg' := hg.sub hsub
    have hl := leaf_of_below ((hr.sub hsub).child d) hs hk
    have hkey : k ∈ (c d).keys := mem_keys_of_leaf hl
    have hshort := (hg'.child d).short k hkey
    rw [getDirection_nodeOf hg'.byte_lt, hshort.seen, hg'.wf.forks.side d k hkey]
  agree a n s s' k k' v v' ha hn hs hk hs' hk' := by
    obtain ⟨i, c, hsub, rfl⟩ := fork_of_below hr ha hn
    have hmem : ∀ {s k v}, Below h (.node a) (.str s) → h.str (.str s) = .ok ⟨v, Key.buf k⟩ →
        k ∈ (CTree.node a i c).keys := fun hb hk =>
      mem_keys_of_leaf (leaf_of_below (t := .node a i c) (hr.sub hsub) hb hk)
    have hagree := (hsub.wf hg.wf).agree (hmem hs hk) (hmem hs' hk')
    have hi : i % 8 < 8 := Nat.mod_lt _ (by decide)
    rw [← pos_div_mod i, Key.agree_pos_iff hi] at hagree
    exact ⟨i / 8, i % 8, rfl, hi, rfl, hagree⟩
  unique s s' k v v' hs hs' hk hk' :=
    (Prod.mk.inj (hg.wf.leaf_eq (leaf_of_below hr hs hk) (leaf_of_below hr hs' hk') rfl)).1

theorem critbitTree_null (h : Heap) : CritbitTree h .null where
  node a ha := by cases not_below_null ha
  leaf a ha := by cases not_below_null ha
  increasing a b n n' ha := by cases not_below_null ha
  direction a n d s k v ha := by cases not_below_null ha
  agree a n s s' k k' v v' ha := by cases not_below_null ha
  unique s s' k v v' ha := by cases not_below_null ha

end

/-- **The representation invariant** holds in every reachable state. -/
theorem critbitTree_reached {root : Addr} {h : Heap} {m : Map} (hr : Reached root h m) :
    ∃ r, h.root root = .ok r ∧ CritbitTree h r.head := by
  obtain ⟨T, O, rfl⟩ := hr.owns
  obtain ⟨x, hx, hp⟩ := O.record
  refine ⟨x, Heap.root_ok hx, ?_⟩
  rw [hp]
  cases T with
  | none => exact critbitTree_null h
  | some t => exact critbitTree_of_rep (O.rep t rfl) (O.good t rfl)

theorem critbitTree_two : ∃ h r,
    Reached 0 h (bindAll Map.empty [(⟨[97], by decide⟩, 5), (⟨[97, 98], by decide⟩, 6)]) ∧
    h.root 0 = .ok r ∧ CritbitTree h r.head := by
  obtain ⟨h, hr⟩ := reached_two
  obtain ⟨r, hroot, ht⟩ := critbitTree_reached hr
  exact ⟨h, r, hr, hroot, ht⟩

end Critbit

import Critbit.Run.Invariant

/-!
# Paths are no longer than keys

A node tests a byte of every key below it, terminators included, and along a path the positions
increase, so a leaf lies under at most eight nodes for each character of its key (`path_bounded`),
however many keys are stored.  The walks of the code go along paths, for search keys of any length,
and the second walk of an insertion does not leave the path of the first.
-/

namespace Critbit
open Crit CTree

/-- the nodes that the leaf `s` lies under -/
def nodesAbove (h : Heap) (head : Ptr) (s : Addr) : Set Addr :=
  {a | Below h head (.node a) ∧ Below h (.node a) (.str s)}

/-- the blocks of `h` are in place -/
def Extends (h h' : Heap) : Prop := ∀ b ∈ h, h'.lookup b = h.lookup b

section
variable {h : Heap} {t : MTree}

/-- the forks on the path of a stored key are the nodes above its leaf -/
theorem nodesAbove_eq (hr : Rep h t) (hg : Good t) {l : Addr × Key × Val} (hl : l ∈ t.leaves) :
    nodesAbove h (ptr t) l.1 = {a | a ∈ (t.path Key.bit l.2.1).map Frame.a} := by
  have hstr := Heap.str_ok (hr.leaf hl)
  ext a
  constructor
  · intro ha
    obtain ⟨i, c, hs, -⟩ := below_node hr ha.1
    obtain ⟨k, v, hkv, e⟩ := below_str (t := .node a i c) (hr.sub hs) ha.2
    rw [hstr, Except.ok.injEq, Str.mk.injEq] at e
    have hk : l.2.1 ∈ (CTree.node a i c).keys := by
      rw [Key.buf_inj e.2]
      exact mem_keys_of_leaf hkv
    obtain ⟨f, hf, hfa⟩ := mem_path hg.wf hs hk
    exact List.mem_map.mpr ⟨f, hf, hfa⟩
  · intro ha
    obtain ⟨f, hf, rfl⟩ := List.mem_map.mp ha
    obtain ⟨hs, hmem⟩ := sub_of_path hf
    rw [nearest_of_leaf hg.wf hl] at hmem
    exact ⟨(below_iff hr).mpr ⟨_, hs, rfl⟩, below_leaf (hr.sub hs) hmem⟩

theorem nodesAbove_ncard (hr : Rep h t) (hg : Good t) (hn : t.annots.Nodup)
    {l : Addr × Key × Val} (hl : l ∈ t.leaves) :
    (nodesAbove h (ptr t) l.1).ncard = (t.path Key.bit l.2.1).length := by
  have hnd := (path_sublist Key.bit l.2.1 t).nodup hn
  rw [nodesAbove_eq hr hg hl, ncard_list hnd, List.length_map]

/-- **The walk of any key passes at most eight forks for each character of the key it finds.** -/
theorem length_path (hw : t.WF Key.bit) (k : Key) :
    (t.path Key.bit k).length ≤ 8 * (strlen (t.nearest Key.bit k).2.1 + 1) := by
  apply length_path_le hw
  intro f hf
  obtain ⟨hs, hmem⟩ := sub_of_path hf
  have hle := Good.byte_le (hs.wf hw) (mem_keys_of_leaf hmem)
  omega

theorem Holds.extend {h' : Heap} {root : Addr} {T : Option MTree} (H : Holds h root T)
    (he : Extends h h') : Holds h' root T := H.frame fun b hb => he b (H.mem hb)

/-- what the comparison finds is always a mask -/
theorem compareKeys_mask {p k : Key} {b : Nat} {x : UInt8}
    (e : compareKeys p.buf k.buf (int32 (strlen k)) = .ok (some (b, x))) :
    ∃ i < 8, newotherbits x = mask i := by
  rcases compareKeys_firstDiff p k with ⟨-, hc⟩ | ⟨b', -, i, hi, y, -, hm, hc⟩
  · rw [hc] at e
    cases e
  · rw [hc] at e
    cases e
    exact ⟨i, hi, hm⟩

/-- no node tests a byte behind a key below it -/
theorem byte_le_of_below (hr : Rep h t) (hg : Good t) {a s : Addr} {n : Node} {k : Key} {v : Val}
    (ha : Below h (ptr t) (.node a)) (hn : h.node a = .ok n) (hs : Below h (.node a) (.str s))
    (hk : h.str (.str s) = .ok ⟨v, k.buf⟩) : n.byte ≤ strlen k := by
  obtain ⟨i, c, hsub, rfl⟩ := fork_of_below hr ha hn
  have hl := leaf_of_below (t := .node a i c) (hr.sub hsub) hs hk
  have hle : i / 8 ≤ strlen k := Good.byte_le (hsub.wf hg.wf) (mem_keys_of_leaf hl)
  show ((i / 8 : Nat) : Int) ≤ strlen k
  omega

/-- a leaf lies under at most eight nodes for each character of its key -/
theorem nodesAbove_le (hr : Rep h t) (hg : Good t) (hn : t.annots.Nodup) {s : Addr} {k : Key}
    {v : Val} (hs : Below h (ptr t) (.str s)) (hk : h.str (.str s) = .ok ⟨v, k.buf⟩) :
    (nodesAbove h (ptr t) s).Finite ∧ (nodesAbove h (ptr t) s).ncard ≤ 8 * (strlen k + 1) := by
  have hl := leaf_of_below hr hs hk
  have hlen := length_path hg.wf k
  rw [nearest_of_leaf hg.wf hl] at hlen
  constructor
  · show (nodesAbove h (ptr t) (s, k, v).1).Finite
    rw [nodesAbove_eq hr hg hl]
    exact List.finite_toSet _
  · show (nodesAbove h (ptr t) (s, k, v).1).ncard ≤ _
    rw [nodesAbove_ncard hr hg hn hl]
    exact hlen

/-- the three walks go along one path -/
theorem walks_le {root : Addr} (O : Owns h root (some t)) (k : Key) : ∃ ns s x v,
    findNearestTrace h k.buf (sizeT (int32 (strlen k))) (h.size + 1) (ptr t) = .ok (ns, .str s) ∧
    h.str (.str s) = .ok ⟨v, Key.buf x⟩ ∧ ns.length ≤ 8 * (strlen x + 1) ∧
    (∃ up, deleteTrace h k.buf (sizeT (int32 (strlen k))) (h.size + 1) (ptr t) (.head root)
      none = .ok (ns, .str s, up)) ∧
    ∀ b o h', compareKeys x.buf k.buf (int32 (strlen k)) = .ok (some (b, o)) → Extends h h' →
      ∃ ns' slot, spliceTrace h' k.buf (sizeT (int32 (strlen k))) b (newotherbits o)
          (h'.size + 1) (.head root) = .ok (ns', slot) ∧
        ns' <+: ns ∧ ns'.length ≤ 8 * (strlen x + 1) := by
  have hr := O.rep t rfl
  have hg := O.good t rfl
  have hfuel := Nat.lt_succ_of_lt O.forks_lt
  have hlen : ((t.path Key.bit (seen k)).map Frame.a).length ≤
      8 * (strlen (t.nearest Key.bit (seen k)).2.1 + 1) := by
    rw [List.length_map]
    exact length_path hg.wf (seen k)
  refine ⟨_, _, _, _, findNearestTrace_rep hr hg hfuel, nearest_str hr (seen k), hlen,
    ⟨_, deleteTrace_rep hr hg hfuel none⟩, fun b o h' hc he => ?_⟩
  obtain ⟨i, hi, hm⟩ := compareKeys_mask hc
  have hpre : t.visits Key.bit (seen k) (pos b i) <+: (t.path Key.bit (seen k)).map Frame.a :=
    visits_prefix (seen k) (pos b i) t
  rw [hm]
  exact ⟨_, _, (spliceTrace_head (O.extend he) k hi).1, hpre, hpre.length_le.trans hlen⟩

end

/-- **Paths are bounded by the lengths of the keys**: no node tests a byte behind a key below it, a
leaf lies under at most eight nodes for each character of its key, and the three walks of the code,
whatever key they search, pass at most that many nodes for the leaf that `find_nearest` reaches. -/
theorem path_bounded {root : Addr} {h : Heap} {m : Map} (hr : Reached root h m) :
    ∃ r, h.root root = .ok r ∧
      (∀ a n s k v, Below h r.head (.node a) → h.node a = .ok n → Below h (.node a) (.str s) →
        h.str (.str s) = .ok ⟨v, Key.buf k⟩ → n.byte ≤ strlen k) ∧
      (∀ s k v, Below h r.head (.str s) → h.str (.str s) = .ok ⟨v, Key.buf k⟩ →
        (nodesAbove h r.head s).Finite ∧ (nodesAbove h r.head s).ncard ≤ 8 * (strlen k + 1)) ∧
      (r.head ≠ .null → ∀ k : Key, ∃ ns s x v,
        findNearestTrace h k.buf (sizeT (int32 (strlen k))) (h.size + 1) r.head =
          .ok (ns, .str s) ∧
        h.str (.str s) = .ok ⟨v, Key.buf x⟩ ∧ ns.length ≤ 8 * (strlen x + 1) ∧
        (∃ up, deleteTrace h k.buf (sizeT (int32 (strlen k))) (h.size + 1) r.head (.head root)
          none = .ok (ns, .str s, up)) ∧
        ∀ b o h', compareKeys x.buf k.buf (int32 (strlen k)) = .ok (some (b, o)) → Extends h h' →
          ∃ ns' slot, spliceTrace h' k.buf (sizeT (int32 (strlen k))) b (newotherbits o)
              (h'.size + 1) (.head root) = .ok (ns', slot) ∧
            ns' <+: ns ∧ ns'.length ≤ 8 * (strlen x + 1)) := by
  obtain ⟨T, O, rfl⟩ := hr.owns
  obtain ⟨r, hroot, hp⟩ := O.record
  refine ⟨r, Heap.root_ok hroot, ?_⟩
  rw [hp]
  cases T with
  | none =>
    refine ⟨fun a n s k v ha => ?_, fun s k v hs => ?_, fun hne => absurd rfl hne⟩
    · cases not_below_null ha
    · cases not_below_null hs
  | some t =>
    have hrep := O.rep t rfl
    have hg := O.good t rfl
    have hn : t.annots.Nodup := (List.nodup_cons.mp O.nodup).2
    refine ⟨fun a n s k v ha hn hs hk => ?_, fun s k v hs hk => ?_, fun _ k => ?_⟩
    · exact byte_le_of_below hrep hg ha hn hs hk
    · exact nodesAbove_le hrep hg hn hs hk
    · exact walks_le O k

theorem path_bounded_two : ∃ (h : Heap) (r : Root),
    Reached 0 h (bindAll Map.empty [(⟨[97], by decide⟩, 5), (⟨[97, 98], by decide⟩, 6)]) ∧
    h.root 0 = .ok r ∧
    (∀ a n s k v, Below h r.head (.node a) → h.node a = .ok n → Below h (.node a) (.str s) →
      h.str (.str s) = .ok ⟨v, Key.buf k⟩ → n.byte ≤ strlen k) ∧
    ∀ s k v, Below h r.head (.str s) → h.str (.str s) = .ok ⟨v, Key.buf k⟩ →
      (nodesAbove h r.head s).Finite ∧ (nodesAbove h r.head s).ncard ≤ 8 * (strlen k + 1) := by
  obtain ⟨h, hr⟩ := reached_two
  obtain ⟨r, hroot, hb, hd, -⟩ := path_bounded hr
  exact ⟨h, r, hr, hroot, hb, hd⟩

end Critbit

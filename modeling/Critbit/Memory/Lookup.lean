import Critbit.Memory.Delete

/-!
# `critbit_get` on a tree in memory, and the heap as a whole

* `critbitGet_tree`, `critbitGet_empty`   the lookup answers what the tree binds, and uses `NULL` as
                                          a string if there is no tree;
* `critbitNew_owns`, `critbitInsert_owns`, `critbitDelete_owns`   the operations on a heap that
                                          holds the root and its tree and nothing else.
-/

namespace Critbit
open Crit CTree

variable {h h' : Heap} {root : Addr} {T T' : Option MTree} {k : Key} {v : Val}

/-! ## lookup -/

/-- the comparison with a leaf of the tree -/
theorem getResult_leaf {t : MTree} (H : Holds h root (some t)) {l : Addr × Key × Val}
    (hl : l ∈ t.leaves) (k : Key) (out : Val) :
    getResult h (.str l.1) k.buf out = .ok (if l.2.1 = k then (0, l.2.2) else (1, out)) := by
  obtain ⟨c, hc, hc0⟩ := strcmp_buf l.2.1 k
  unfold getResult
  rw [Heap.str_ok ((H.rep t rfl).leaf hl), ok_bind]
  show (strcmp l.2.1.buf k.buf >>= _) = _
  rw [hc, ok_bind]
  by_cases e : l.2.1 = k
  · rw [if_pos (hc0.mpr e), if_pos e]; rfl
  · rw [if_neg fun e' => e (hc0.mp e'), if_neg e]; rfl

/-- the walk to a leaf, for a key of any length -/
theorem critbitGet_walk {t : MTree} (H : Holds h root (some t)) (k : Key) (out : Val) :
    ∃ l ∈ t.leaves, (Short k → l = t.nearest Key.bit k) ∧
      critbitGet h root k out = .ok (if l.2.1 = k then (0, l.2.2) else (1, out)) := by
  obtain ⟨x, hx, hp⟩ := H.record
  have hp' : x.head = ptr t := hp
  refine ⟨_, nearest_mem Key.bit (seen k) t, fun hk => by rw [hk.seen], ?_⟩
  unfold critbitGet
  simp only [Heap.root_ok hx, ok_bind, hp', findNearest_rep H]
  exact getResult_leaf H (nearest_mem Key.bit (seen k) t) k out

/-- the answer of a map to a lookup: the return value and `*out` -/
def answer (w : Option Val) (out : Val) : Int × Val := w.elim (1, out) (0, ·)

/-- **`critbit_get`** in a non-empty tree -/
theorem critbitGet_tree {t : MTree} (H : Holds h root (some t)) (k : Key) (out : Val) :
    critbitGet h root k out = .ok (answer (valueOf (some t) k) out) := by
  obtain ⟨l, hl, hn, e⟩ := critbitGet_walk H k out
  rw [e]
  by_cases hlk : l.2.1 = k
  · have hb : (k, l.2.2) ∈ bindsOf (some t) := hlk ▸ List.mem_map_of_mem hl
    rw [if_pos hlk, (valueOf_eq_some H.good).mpr hb]
    rfl
  · rw [if_neg hlk, valueOf_eq_none.mpr fun hk => hlk ?_]
    · rfl
    · have hs := short_of_mem H.good hk
      rw [hn hs]
      exact nearest_of_mem (H.good t rfl).wf hk

/-- without a tree the comparison gets `NULL` -/
theorem critbitGet_empty (H : Holds h root none) (k : Key) (out : Val) :
    critbitGet h root k out = .error .null := by
  obtain ⟨x, hx, hp⟩ := H.record
  have hp' : x.head = .null := hp
  unfold critbitGet
  simp only [Heap.root_ok hx, ok_bind, hp']
  rfl

/-! ## nothing but the root and its tree -/

theorem critbitNew_owns {o : Option Addr} {root : Addr} {h : Heap}
    (e : critbitNew ∅ o = .ok (root, h)) : Owns h root none := by
  unfold critbitNew at e
  cases hg : Heap.grant ∅ o with
  | none => rw [Heap.malloc_none hg] at e; cases e
  | some a =>
    rw [Heap.malloc_some hg] at e
    simp only [pure_ok, Except.ok.injEq, Prod.mk.injEq] at e
    obtain ⟨rfl, rfl⟩ := e
    refine ⟨⟨⟨_, Finmap.lookup_insert _, rfl⟩, fun t ht => (by cases ht), List.nodup_singleton a,
      fun t ht => (by cases ht)⟩, fun b => ?_⟩
    rw [Finmap.mem_insert, Finmap.mem_insert]
    show _ ∨ _ ∨ b ∈ (∅ : Heap) ↔ b ∈ [a]
    rw [List.mem_singleton, ← or_assoc, or_self]
    exact or_iff_left Finmap.notMem_empty

theorem critbitInsert_owns (O : Owns h root T) (hk : Short k) (v : Val)
    (mnode mstr : Option Addr) :
    (critbitInsert h root k v mnode mstr = .ok (1, h) ∧
      (k ∈ keysOf T ∨ mallocs h root mnode mstr = none)) ∨
    ∃ h' T' new, critbitInsert h root k v mnode mstr = .ok (0, h') ∧ Inserted k v T T' new ∧
      Owns h' root T' ∧ mallocs h root mnode mstr = some new := by
  rcases critbitInsert_spec O.toHolds hk v mnode mstr with
    e | ⟨h₁, s, p, h', T', new, e, P, hs, H', hm⟩
  · exact .inl e
  · refine .inr ⟨h', T', new, e, P.inserted, ⟨H', fun b => ?_⟩, hm⟩
    rw [Heap.store_mem hs, P.mem_iff, O.live,
      ((P.inserted.annots.cons root).trans List.perm_middle.symm).mem_iff, List.mem_append]

theorem critbitDelete_owns (O : Owns h root T) (k : Key) :
    (k ∉ keysOf T ∧ ∃ h', critbitDelete h root k = .ok (1, h') ∧ Owns h' root T ∧
      ∀ b, b ≠ root → h'.lookup b = h.lookup b) ∨
    ∃ h' T' old, critbitDelete h root k = .ok (0, h') ∧ Deleted k T T' old ∧ Owns h' root T' ∧
      (∀ b, b ∈ h' ↔ b ∈ h ∧ b ∉ old) := by
  rcases critbitDelete_spec O.toHolds k with ⟨hn, h', e, H', hf⟩ | ⟨h', T', old, e, D, H', hm⟩
  · refine .inl ⟨hn, h', e, ⟨H', fun b => ?_⟩, hf⟩
    rw [← O.live]
    by_cases hb : b = root
    · subst hb
      exact iff_of_true (H'.mem List.mem_cons_self) (O.mem List.mem_cons_self)
    · rw [Finmap.mem_iff, hf b hb, ← Finmap.mem_iff (s := h)]
  · refine .inr ⟨h', T', old, e, D, ⟨H', fun b => ?_⟩, hm⟩
    have hp := (D.annots.cons root).trans List.perm_middle.symm
    have hnd := hp.nodup_iff.mp O.nodup
    rw [hm, O.live, hp.mem_iff, List.mem_append]
    constructor
    · rintro ⟨hb | hb, hno⟩
      · exact absurd hb hno
      · exact hb
    · exact fun hb => ⟨.inr hb, fun hb' => List.disjoint_of_nodup_append hnd hb' hb⟩

end Critbit

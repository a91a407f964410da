import Critbit.Memory.Effects

/-!
# `critbit_insert` on a tree in memory

`insertPrepare` does one of two things (`insertPrepare_spec`): it gives up, with return value `1`
and the heap it was called with, or it prepares: the new leaf and, in a non-empty tree, the new
node are complete blocks that nothing points to yet (`Prepared`).  The store that follows publishes
them (`Prepared.publish`).  `critbitInsert_spec` puts both together.
-/

namespace Critbit
open Crit CTree

variable {h h₁ h' : Heap} {root : Addr} {T T' : Option MTree} {k : Key} {v : Val}
  {mnode mstr : Option Addr}

/-- the blocks that the `malloc`s of an insertion return, if none of them fails -/
def mallocs (h : Heap) (root : Addr) (mnode mstr : Option Addr) : Option (List Addr) :=
  match h.root root with
  | .error _ => none
  | .ok r =>
    if r.head = .null then (h.grant mstr).map fun b => [b]
    else (h.grant mnode).bind fun a =>
      (Heap.grant (h.insert a (.raw 24)) mstr).map fun b => [a, b]

/-- the length survives the conversions, and the two sums of `alloc_string` are exact -/
def LengthKept (k : Key) : Prop :=
  int32 (strlen k) < 2147483647 ∧ sizeT (int32 (strlen k) + 8 + 1) = strlen k + 9

/-- the lengths that are kept: those of short keys, and those just below `2 ^ 64` -/
theorem lengthKept_iff : LengthKept k ↔ Short k ∨
    18446744071562067968 ≤ strlen k ∧ strlen k ≤ 18446744073709551606 := by
  unfold LengthKept Short
  constructor
  · intro hk
    obtain ⟨h1, h2⟩ := hk
    unfold sizeT int32 at *
    omega
  · intro hk
    unfold sizeT int32
    omega

theorem Short.lengthKept (hk : Short k) : LengthKept k := lengthKept_iff.mpr (.inl hk)

theorem LengthKept.seen (hk : LengthKept k) : seen k = k := by
  apply Key.take_of_le
  obtain ⟨-, h1⟩ := hk
  unfold sizeT int32 at *
  omega

theorem LengthKept.succ (hk : LengthKept k) : sizeT (int32 (strlen k) + 1) = strlen k + 1 := by
  obtain ⟨-, h1⟩ := hk
  unfold sizeT int32 at *
  omega

theorem allocString_none {o : Option Addr} (hg : h.grant o = none) (bytes : List UInt8) (len : Int)
    (v : Val) : allocString h o bytes len v = .ok none := by
  unfold allocString
  simp only [Heap.malloc_none hg]
  rfl

/-- `alloc_string` once `malloc` has returned a block -/
theorem allocString_some {o : Option Addr} {b : Addr} (hg : h.grant o = some b)
    (bytes : List UInt8) (len : Int) (v : Val) : allocString h o bytes len v =
      if sizeT (len + 8 + 1) < 8 then .error .bounds
      else if 2147483647 < len + 1 then .error .overflow
      else if bytes.length < sizeT (len + 1) ∨ sizeT (len + 8 + 1) < 8 + sizeT (len + 1) then
        .error .bounds
      else .ok (some (.str b, h.insert b (.str ⟨v, bytes.take (sizeT (len + 1))⟩))) := by
  unfold allocString
  simp only [Heap.malloc_some hg, Finmap.insert_insert]
  rfl

theorem allocString_buf (hk : LengthKept k) (o : Option Addr) :
    allocString h o k.buf (int32 (strlen k)) v =
      .ok ((h.grant o).map fun b => (.str b, h.insert b (.str ⟨v, k.buf⟩))) := by
  cases hg : h.grant o with
  | none => exact allocString_none hg _ _ v
  | some b =>
    have h1 : ¬ strlen k + 9 < 8 := by omega
    have h2 : ¬ (2147483647 : Int) < int32 (strlen k) + 1 := by
      have := hk.1
      omega
    have h3 : ¬ (k.buf.length < strlen k + 1 ∨ strlen k + 9 < 8 + (strlen k + 1)) := by
      rw [Key.buf_length]
      omega
    rw [allocString_some hg, hk.2, hk.succ, if_neg h1, if_neg h2, if_neg h3, ← Key.buf_length,
      List.take_length]
    rfl

/-! ## what an insertion has prepared -/

/-- Blocks ready to be published: `u` stands in the heap at new addresses, and storing the pointer
`p` to it in the slot `s` turns the tree `T` into `T'`. -/
structure Prepared (h : Heap) (root : Addr) (T : Option MTree) (k : Key) (v : Val) (h₁ : Heap)
    (s : Slot) (p : Ptr) (T' : Option MTree) (new : List Addr) : Prop where
  inserted : Inserted k v T T' new
  fresh : ∀ b ∈ new, b ∉ h
  nodup : new.Nodup
  frame : ∀ b, b ∉ new → h₁.lookup b = h.lookup b
  slot : (T = none ∧ s = .head root ∧ ∃ b, T' = some (leaf b k v) ∧ new = [b] ∧ p = .str b ∧
      h₁.lookup b = some (.str ⟨v, k.buf⟩)) ∨
    ∃ C t i a b, T = some (fill C t) ∧ s = slotAt (.head root) C ∧ new = [a, b] ∧ p = .node a ∧
      (∀ x ∈ t.keys, FirstDiff Key.bit k x i) ∧ T' = some (fill C (join Key.bit a b k v i t)) ∧
      h₁.lookup b = some (.str ⟨v, k.buf⟩) ∧
      h₁.lookup a = some (.node (nodeOf i (Function.update (fun _ => t) (k.bit i) (leaf b k v))))

/-- the new blocks and the old ones are what is live -/
theorem Prepared.mem_iff {s : Slot} {p : Ptr} {new : List Addr}
    (P : Prepared h root T k v h₁ s p T' new) {b : Addr} : b ∈ h₁ ↔ b ∈ new ∨ b ∈ h := by
  by_cases hb : b ∈ new
  · refine iff_of_true ?_ (.inl hb)
    rcases P.slot with ⟨-, -, c, -, rfl, -, hc⟩ | ⟨C, t, i, a, c, -, -, rfl, -, -, -, hc, ha⟩
    · obtain rfl := List.mem_singleton.mp hb
      exact Heap.mem_of_lookup hc
    · rcases List.mem_pair.mp hb with rfl | rfl
      · exact Heap.mem_of_lookup ha
      · exact Heap.mem_of_lookup hc
  · rw [Finmap.mem_iff, P.frame b hb, ← Finmap.mem_iff (s := h)]
    exact ⟨.inr, fun e => e.resolve_left hb⟩

/-- the blocks of the tree are not among the new ones -/
theorem Prepared.old {s : Slot} {p : Ptr} {new : List Addr} (H : Holds h root T)
    (P : Prepared h root T k v h₁ s p T' new) {b : Addr} (hb : b ∈ root :: annotsOf T) :
    h₁.lookup b = h.lookup b := P.frame b fun e => P.fresh b e (H.mem hb)

/-- the store goes to a block of the old tree -/
theorem Prepared.addr {s : Slot} {p : Ptr} {new : List Addr}
    (P : Prepared h root T k v h₁ s p T' new) : s.addr ∈ root :: annotsOf T := by
  rcases P.slot with ⟨-, rfl, -⟩ | ⟨C, t, i, a, b, rfl, rfl, -⟩
  · exact List.mem_cons_self
  · exact slotAt_addr_mem root C t

/-- the publishing store puts the new blocks into the tree -/
theorem Prepared.linked {s : Slot} {p : Ptr} {new : List Addr} (H : Holds h root T)
    (P : Prepared h root T k v h₁ s p T' new) :
    ∃ h', h₁.store s p = .ok h' ∧ (∃ x, h'.lookup root = some (.root x) ∧ x.head = ptrOf T') ∧
      (root :: annotsOf T').Nodup ∧ ∀ t ∈ T', Rep h' t := by
  have haddr := P.addr
  have H₁ : Holds h₁ root T := H.frame fun b hb => P.old H hb
  obtain ⟨x, hx, hp⟩ := H₁.record
  have hnd : (root :: annotsOf T').Nodup := by
    have hperm := (P.inserted.annots.cons root).trans List.perm_middle.symm
    refine hperm.nodup_iff.mpr (List.nodup_append'.mpr ⟨P.nodup, H.nodup, fun b hb hb' => ?_⟩)
    exact P.fresh b hb (H.mem hb')
  rcases P.slot with ⟨rfl, rfl, b, rfl, rfl, rfl, hb⟩ |
    ⟨C, t, i, a, b, rfl, rfl, rfl, rfl, -, rfl, hb, ha⟩
  · refine ⟨_, Heap.store_head hx _, ⟨_, Finmap.lookup_insert _, rfl⟩, hnd, ?_⟩
    rintro t ⟨rfl⟩
    have hne : b ≠ root := fun e => (List.nodup_cons.mp hnd).1 (e ▸ List.mem_cons_self)
    exact (Finmap.lookup_insert_of_ne _ hne).trans hb
  · obtain ⟨h', hs, hrep⟩ := store_slot hx hp (H₁.rep _ rfl) H₁.nodup (.node a)
    have hnew : ∀ c ∈ [a, b], h'.lookup c = h₁.lookup c := fun c hc =>
      Heap.store_frame hs fun e => P.fresh c hc (H.mem (e ▸ haddr))
    -- what hangs from the slot is not written
    have ht : Rep h' t := (H₁.rep _ rfl).of_fill.frame fun c hc =>
      Heap.store_frame hs fun e => slotAt_not_mem H₁.nodup (e ▸ hc)
    have hj : Rep h' (join Key.bit a b k v i t) := by
      refine ⟨(hnew a (by simp)).trans ha, fun d => ?_⟩
      by_cases e : d = k.bit i
      · rw [e, join_self]
        exact (hnew b (by simp)).trans hb
      · rw [Function.update_of_ne e]
        exact ht
    obtain ⟨hroot, hrep'⟩ := hrep _ rfl hj
    refine ⟨h', hs, ⟨_, hroot, rfl⟩, hnd, ?_⟩
    rintro u ⟨rfl⟩
    exact hrep'

/-- **The publishing store**: afterwards the root holds the tree with the key. -/
theorem Prepared.publish {s : Slot} {p : Ptr} {new : List Addr} (H : Holds h root T)
    (hk : Short k) (P : Prepared h root T k v h₁ s p T' new) :
    ∃ h', h₁.store s p = .ok h' ∧ Holds h' root T' := by
  obtain ⟨h', hs, hrec, hnd, hrep⟩ := P.linked H
  exact ⟨h', hs, hrec, hrep, hnd, P.inserted.good hk H.good⟩

/-! ## the function itself -/

theorem mallocs_empty (H : Holds h root none) (mnode mstr : Option Addr) :
    mallocs h root mnode mstr = (h.grant mstr).map fun b => [b] := by
  obtain ⟨x, hx, hp⟩ := H.record
  unfold mallocs
  rw [Heap.root_ok hx]
  exact if_pos hp

theorem mallocs_tree {t : MTree} (H : Holds h root (some t)) (mnode mstr : Option Addr) :
    mallocs h root mnode mstr = (h.grant mnode).bind fun a =>
      (Heap.grant (h.insert a (.raw 24)) mstr).map fun b => [a, b] := by
  obtain ⟨x, hx, hp⟩ := H.record
  unfold mallocs
  rw [Heap.root_ok hx]
  exact if_neg (hp ▸ ptr_ne_null t)

theorem mallocs_some {t : MTree} (H : Holds h root (some t)) {new : List Addr}
    (hm : mallocs h root mnode mstr = some new) : ∃ a c, h.grant mnode = some a ∧
      Heap.grant (h.insert a (.raw 24)) mstr = some c ∧ new = [a, c] := by
  rw [mallocs_tree H] at hm
  obtain ⟨a, ha, hm⟩ := Option.bind_eq_some_iff.mp hm
  obtain ⟨c, hc, e⟩ := Option.map_eq_some_iff.mp hm
  exact ⟨a, c, ha, hc, e.symm⟩

/-- the first key: only the leaf is allocated -/
theorem insertPrepare_empty (H : Holds h root none) (bytes : List UInt8) (keylen : Int) :
    insertPrepare h root bytes keylen v mnode mstr =
      (allocString h mstr bytes keylen v >>= fun r =>
        match r with
        | none => pure ((1 : Int), h, (none : Option (Slot × Ptr)))
        | some (p, h) => pure (0, h, some (.head root, p))) := by
  obtain ⟨x, hx, hp⟩ := H.record
  have hp' : x.head = .null := hp
  unfold insertPrepare
  rw [Heap.root_ok hx, ok_bind]
  exact if_pos hp'

/-- in a non-empty tree the nearest leaf is compared first -/
theorem insertPrepare_tree {t : MTree} (H : Holds h root (some t)) (k : Key) :
    insertPrepare h root k.buf (int32 (strlen k)) v mnode mstr =
      (compareKeys (t.nearest Key.bit (seen k)).2.1.buf k.buf (int32 (strlen k)) >>= fun r =>
        match r with
        | none => pure (1, h, none)
        | some (newbyte, x) => spliceNode h root k.buf (int32 (strlen k)) v mnode mstr
            (t.nearest Key.bit (seen k)).2.1.buf newbyte x) := by
  obtain ⟨x, hx, hp⟩ := H.record
  have hp' : x.head = ptr t := hp
  unfold insertPrepare
  rw [Heap.root_ok hx, ok_bind, hp', if_neg (ptr_ne_null t), findNearest_rep H, ok_bind,
    nearest_str (H.rep t rfl)]
  generalize int32 (strlen k : Int) = n
  exact ok_bind _ _

/-- the node that is published: the new leaf on the side of its bit, the old subtree on the other -/
theorem splice_children (c : Bool) (p q : Ptr) :
    Function.update (Function.update (fun _ => Ptr.null) (!c) p) c q =
      Function.update (fun _ => q) (!c) p := by
  funext d
  cases c <;> cases d <;> rfl

/-- the heap of the second walk: both new blocks are there, and the node lacks its other child -/
def spliceHeap (h : Heap) (k : Key) (v : Val) (a c : Addr) (b i : Nat) : Heap :=
  Finmap.insert a (Block.node ⟨Function.update (fun _ => Ptr.null) (k.bit (pos b i)) (.str c),
      int32 b, mask i⟩)
    (Finmap.insert c (Block.str ⟨v, k.buf⟩) (Finmap.insert a (Block.raw 24) h))

theorem spliceHeap_old {a c e : Addr} (b i : Nat) (ha : e ≠ a) (hc : e ≠ c) :
    (spliceHeap h k v a c b i).lookup e = h.lookup e := by
  unfold spliceHeap
  rw [Finmap.lookup_insert_of_ne _ ha, Finmap.lookup_insert_of_ne _ hc,
    Finmap.lookup_insert_of_ne _ ha]

section
variable {t : MTree} {a c : Addr} {b i : Nat}

/-- the second walk finds the slot of `split` -/
theorem splice_walk (v : Val) (H : Holds h root (some t)) (hk : LengthKept k) (hi : i < 8) (ha : a ∉ h)
    (hc : c ∉ h) :
    spliceLoop (spliceHeap h k v a c b i) k.buf (sizeT (int32 (strlen k))) b (mask i)
        ((spliceHeap h k v a c b i).size + 1) (.head root) =
      .ok (slotAt (.head root) (t.split Key.bit k (pos b i)).1) ∧
    (spliceHeap h k v a c b i).load (slotAt (.head root) (t.split Key.bit k (pos b i)).1) =
      .ok (ptr (t.split Key.bit k (pos b i)).2) := by
  have H₂ : Holds (spliceHeap h k v a c b i) root (some t) := H.frame fun e he =>
    spliceHeap_old b i (fun e' => ha (e' ▸ H.mem he)) (fun e' => hc (e' ▸ H.mem he))
  have hw := spliceLoop_rep (b := b) H₂ k hi
  have hl := (spliceTrace_head (b := b) H₂ k hi).2
  rw [hk.seen] at hw hl
  exact ⟨hw, hl⟩

/-- with its other child the node is ready -/
theorem splice_prepared (v : Val) (H : Holds h root (some t)) (hb : b < 2147483647)
    (hi : i < 8) (hd : FirstDiff Key.bit k (t.nearest Key.bit k).2.1 (pos b i)) (ha : a ∉ h)
    (hc : c ∉ h) (hca : c ≠ a) :
    Prepared h root (some t) k v (Finmap.insert a (Block.node ⟨Function.update (Function.update
        (fun _ => Ptr.null) (k.bit (pos b i)) (.str c)) (!k.bit (pos b i))
        (ptr (t.split Key.bit k (pos b i)).2), int32 b, mask i⟩) (spliceHeap h k v a c b i))
      (slotAt (.head root) (t.split Key.bit k (pos b i)).1) (.node a)
      (some (t.insertAt Key.bit a c k v (pos b i))) [a, c] := by
  refine ⟨.splice t (pos b i) a c hd, fun e he => ?_, by simpa using hca.symm, fun e he => ?_,
    .inr ⟨_, _, pos b i, a, c, by rw [fill_split], rfl, rfl, rfl, fun z hz => ?_, rfl, ?_, ?_⟩⟩
  · rcases List.mem_pair.mp he with rfl | rfl
    · exact ha
    · exact hc
  · have h1 : e ≠ a := fun e' => he (by simp [e'])
    have h2 : e ≠ c := fun e' => he (by simp [e'])
    rw [Finmap.lookup_insert_of_ne _ h1, spliceHeap_old b i h1 h2]
  · exact ((mem_split (H.good t rfl).wf hd).mp hz).2
  · unfold spliceHeap
    rw [Finmap.lookup_insert_of_ne _ hca, Finmap.lookup_insert_of_ne _ hca, Finmap.lookup_insert]
  · have hbyte : int32 b = (pos b i / 8 : Nat) := by
      rw [pos_div hi]
      exact int32_of_lt (by omega)
    have hswap := splice_children (!k.bit (pos b i)) (.str c) (ptr (t.split Key.bit k (pos b i)).2)
    rw [Bool.not_not] at hswap
    rw [Finmap.lookup_insert, hswap, nodeOf_update, hbyte]
    simp only [nodeOf, pos_mod hi]
    rfl

/-- if a `malloc` fails then nothing stays allocated -/
theorem spliceNode_none (H : Holds h root (some t)) (hm : mallocs h root mnode mstr = none)
    {x : Key} (hb : b ≤ strlen x) (bytes : List UInt8) (keylen : Int) (v : Val) (y : UInt8) :
    spliceNode h root bytes keylen v mnode mstr x.buf b y = .ok (1, h, none) := by
  rw [mallocs_tree H] at hm
  unfold spliceNode
  rw [readAt_buf hb, ok_bind]
  cases hga : h.grant mnode with
  | none =>
    simp only [Heap.malloc_none hga]
    rfl
  | some a =>
    obtain ⟨-, ha⟩ := Heap.grant_some hga
    rw [hga, Option.bind_some, Option.map_eq_none_iff] at hm
    simp only [Heap.malloc_some hga, allocString_none hm, ok_bind]
    rw [Heap.free_ok (Finmap.mem_insert.mpr (.inl rfl)), ok_bind, Heap.erase_insert ha]
    rfl

theorem spliceNode_spec (v : Val) (mnode mstr : Option Addr) (H : Holds h root (some t))
    (hk : LengthKept k) (hb : b ≤ strlen (t.nearest Key.bit k).2.1) (hi : i < 8)
    (hd : FirstDiff Key.bit k (t.nearest Key.bit k).2.1 (pos b i)) {x : UInt8}
    (hx : newotherbits x = mask i) :
    (mallocs h root mnode mstr = none ∧
      spliceNode h root k.buf (int32 (strlen k)) v mnode mstr (t.nearest Key.bit k).2.1.buf b x =
        .ok (1, h, none)) ∨
    ∃ h₁ s p T' new, mallocs h root mnode mstr = some new ∧
      spliceNode h root k.buf (int32 (strlen k)) v mnode mstr (t.nearest Key.bit k).2.1.buf b x =
        .ok (0, h₁, some (s, p)) ∧ Prepared h root (some t) k v h₁ s p T' new := by
  cases hm : mallocs h root mnode mstr with
  | none => exact .inl ⟨rfl, spliceNode_none H hm hb _ _ v x⟩
  | some new =>
    right
    obtain ⟨a, c, hga, hgb, rfl⟩ := mallocs_some H hm
    obtain ⟨-, ha⟩ := Heap.grant_some hga
    obtain ⟨-, hc⟩ := Heap.grant_some hgb
    have hca : c ≠ a := fun e => hc (Finmap.mem_insert.mpr (.inl e))
    have hch : c ∉ h := fun e => hc (Finmap.mem_insert.mpr (.inr e))
    have hshort := (H.good t rfl).short _ (nearest_key_mem Key.bit k t)
    have hdir : direction (mask i) ((t.nearest Key.bit k).2.1.byteAt b) = !k.bit (pos b i) := by
      have h1 : Key.bit (t.nearest Key.bit k).2.1 (pos b i) = !k.bit (pos b i) :=
        Bool.eq_not_of_ne hd.2.symm
      rw [direction_mask _ hi, ← h1]
      unfold Key.bit
      rw [pos_div hi, pos_mod hi]
    obtain ⟨hw, hold⟩ := splice_walk (b := b) v H hk hi ha hch
    have hnode : (spliceHeap h k v a c b i).lookup a = some (.node ⟨_, _, _⟩) :=
      Finmap.lookup_insert _
    refine ⟨_, _, _, _, [a, c], rfl, ?_,
      splice_prepared v H (lt_of_le_of_lt hb hshort) hi hd ha hch hca⟩
    unfold spliceNode
    rw [hx, readAt_buf hb, ok_bind, hdir]
    simp only [Heap.malloc_some hga, allocString_buf hk, hgb, ok_bind, Option.map_some,
      Bool.not_not]
    show (do
      let h₂ := spliceHeap h k v a c b i
      let wherep ← spliceLoop h₂ k.buf (sizeT (int32 (strlen k))) b (mask i) (h₂.size + 1) (.head root)
      let old ← h₂.load wherep
      let h ← h₂.store (.child a (!k.bit (pos b i))) old
      pure ((0 : Int), h, some (wherep, Ptr.node a))) = _
    simp only [hw, ok_bind, hold, Heap.store_child hnode]
    rfl

end

/-- a kept length is short, or so long that no key of a tree comes near -/
theorem LengthKept.short_or (hk : LengthKept k) : Short k ∨ 2147483648 ≤ strlen (compared k) := by
  rw [strlen_compared]
  rcases lengthKept_iff.mp hk with hs | hs
  · exact .inl hs
  · right
    omega

/-- the comparison of a kept key with a key of the tree is that of the whole keys -/
theorem LengthKept.compare (hk : LengthKept k) {x : Key} (hx : Short x) :
    (x = k ∧ compareKeys x.buf k.buf (int32 (strlen k)) = .ok none) ∨
      ∃ b ≤ strlen x, ∃ i < 8, ∃ y, FirstDiff Key.bit k x (pos b i) ∧ newotherbits y = mask i ∧
        compareKeys x.buf k.buf (int32 (strlen k)) = .ok (some (b, y)) := by
  have hsame : ∀ n, n / 8 ≤ strlen x → (compared k).bit n = k.bit n := by
    intro n hn
    rcases hk.short_or with hs | hs
    · rw [hs.compared]
    · have hle : n / 8 < strlen (compared k) := by unfold Short at hx; omega
      unfold compared at hle ⊢
      rw [Key.strlen_take] at hle
      unfold Key.bit
      rw [Key.byteAt_take (by omega)]
  rcases compareKeys_firstDiff x k with ⟨e, hc⟩ | ⟨b, hbx, i, hi, y, hd, hm, hc⟩
  · refine .inl ⟨?_, hc⟩
    rcases hk.short_or with hs | hs
    · rw [e, hs.compared]
    · rw [e] at hx
      unfold Short at hx
      omega
  · refine .inr ⟨b, hbx, i, hi, y, ⟨fun j hj => ?_, ?_⟩, hm, hc⟩
    · have hjb : j / 8 ≤ strlen x := by unfold pos at hj; omega
      rw [← hsame j hjb]
      exact hd.1 j hj
    · rw [← hsame (pos b i) (by rw [pos_div hi]; exact hbx)]
      exact hd.2

/-- **What an insertion does before its last store**: it has given up and left the heap as it was,
or it has prepared the blocks to publish. -/
theorem insertPrepare_kept (H : Holds h root T) (hk : LengthKept k) (v : Val)
    (mnode mstr : Option Addr) :
    (insertPrepare h root k.buf (int32 (strlen k)) v mnode mstr = .ok (1, h, none) ∧
      (k ∈ keysOf T ∨ mallocs h root mnode mstr = none)) ∨
    ∃ h₁ s p T' new,
      insertPrepare h root k.buf (int32 (strlen k)) v mnode mstr = .ok (0, h₁, some (s, p)) ∧
      Prepared h root T k v h₁ s p T' new ∧ mallocs h root mnode mstr = some new := by
  cases T with
  | none =>
    rw [insertPrepare_empty H, allocString_buf hk, mallocs_empty H]
    cases hg : h.grant mstr with
    | none => exact .inl ⟨rfl, .inr rfl⟩
    | some b =>
      obtain ⟨-, hb⟩ := Heap.grant_some hg
      refine .inr ⟨_, _, _, some (leaf b k v), [b], rfl, ?_, rfl⟩
      refine ⟨.first b, fun c hc => List.mem_singleton.mp hc ▸ hb, List.nodup_singleton b,
        fun c hc => ?_, .inl ⟨rfl, rfl, b, rfl, rfl, rfl, Finmap.lookup_insert _⟩⟩
      exact Finmap.lookup_insert_of_ne _ fun e => hc (e ▸ List.mem_singleton_self b)
  | some t =>
    rw [insertPrepare_tree H, hk.seen]
    have hshort := (H.good t rfl).short _ (nearest_key_mem Key.bit k t)
    rcases hk.compare hshort with ⟨e, hc⟩ | ⟨b, hb, i, hi, y, hd, hm, hc⟩
    · rw [hc]
      exact .inl ⟨rfl, .inl ((nearest_eq_iff (H.good t rfl).wf).mp e)⟩
    · rw [hc, ok_bind]
      rcases spliceNode_spec v mnode mstr H hk hb hi hd hm with
        ⟨hnone, e⟩ | ⟨h₁, s, p, T', new, hsome, e, P⟩
      · exact .inl ⟨e, .inr hnone⟩
      · exact .inr ⟨h₁, s, p, T', new, e, P, hsome⟩

theorem insertPrepare_spec (H : Holds h root T) (hk : Short k) (v : Val)
    (mnode mstr : Option Addr) :
    (insertPrepare h root k.buf (int32 (strlen k)) v mnode mstr = .ok (1, h, none) ∧
      (k ∈ keysOf T ∨ mallocs h root mnode mstr = none)) ∨
    ∃ h₁ s p T' new,
      insertPrepare h root k.buf (int32 (strlen k)) v mnode mstr = .ok (0, h₁, some (s, p)) ∧
      Prepared h root T k v h₁ s p T' new ∧ mallocs h root mnode mstr = some new :=
  insertPrepare_kept H hk.lengthKept v mnode mstr

/-- **`critbit_insert`**: it returns `1` and changes nothing if the key is there or a `malloc`
fails; else it returns `0` and the new tree has the key. -/
theorem critbitInsert_spec (H : Holds h root T) (hk : Short k) (v : Val)
    (mnode mstr : Option Addr) :
    (critbitInsert h root k v mnode mstr = .ok (1, h) ∧
      (k ∈ keysOf T ∨ mallocs h root mnode mstr = none)) ∨
    ∃ h₁ s p h' T' new, critbitInsert h root k v mnode mstr = .ok (0, h') ∧
      Prepared h root T k v h₁ s p T' new ∧ h₁.store s p = .ok h' ∧ Holds h' root T' ∧
      mallocs h root mnode mstr = some new := by
  unfold critbitInsert critbitInsertInplace
  rcases insertPrepare_spec H hk v mnode mstr with
    ⟨e, hc⟩ | ⟨h₁, s, p, T', new, e, P, hm⟩
  · rw [e]
    exact .inl ⟨rfl, hc⟩
  · obtain ⟨h', hs, H'⟩ := P.publish H hk
    refine .inr ⟨h₁, s, p, h', T', new, ?_, P, hs, H', hm⟩
    rw [e, ok_bind]
    show (h₁.store s p >>= fun h => pure (0, h)) = _
    rw [hs]
    rfl

end Critbit

import Critbit.Run.Refine
import Critbit.Memory.Reach

/-!
# Insertions of keys of any length

`critbit_insert` narrows `strlen` to `int`, the comparison converts that to `uint32_t`, and
`alloc_string` computes the size of the block in `size_t` and the number of bytes it copies in `int`.
A key whose length survives all of this is stored whole (`insertSound_kept`).  For any other key the
insertion is right only if it gives up before the copy, because a `malloc` fails or because the
comparison takes the key for a stored one (`insertPrepare_up`); if it gets to the copy it reads or
writes out of bounds, overflows, or publishes a leaf that is not the key (`not_insertSound_lost`).
`insertSound_iff` puts the cases together.
-/

namespace Critbit
open Crit CTree

/-- What an insertion is to do: it comes to an end, with the tree unchanged, or with a new leaf in
the tree that is a complete terminated copy of the key. -/
def InsertSound (h : Heap) (root : Addr) (k : Key) (v : Val) (mnode mstr : Option Addr) : Prop :=
  ∃ ret h', critbitInsert h root k v mnode mstr = .ok (ret, h') ∧
    (ret = 1 ∧ h' = h ∨ ret = 0 ∧ ∃ a r, a ∉ h ∧ h'.str (.str a) = .ok ⟨v, k.buf⟩ ∧
      h'.root root = .ok r ∧ Below h' r.head (.str a))

variable {h : Heap} {root : Addr} {T : Option MTree} {k : Key} {v : Val}
  {mnode mstr : Option Addr}

/-! ## lengths that are kept -/

/-- the leaf of the new key is in the new tree -/
theorem Prepared.leaf {h₁ : Heap} {s : Slot} {p : Ptr} {T' : Option MTree} {new : List Addr}
    (P : Prepared h root T k v h₁ s p T' new) :
    ∃ b ∈ new, ∃ t', T' = some t' ∧ (b, k, v) ∈ t'.leaves := by
  rcases P.slot with ⟨-, -, b, rfl, rfl, -⟩ | ⟨C, t, i, a, b, -, -, rfl, -, -, rfl, -⟩
  · exact ⟨b, List.mem_cons_self, _, rfl, List.mem_cons_self⟩
  · refine ⟨b, by simp, _, rfl, ?_⟩
    rw [mem_leaves_fill, (leaves_join a b v t).mem_iff]
    exact .inl List.mem_cons_self

/-- **A key whose length is kept is stored whole.** -/
theorem insertSound_kept (H : Holds h root T) (hk : LengthKept k) (v : Val)
    (mnode mstr : Option Addr) : InsertSound h root k v mnode mstr := by
  unfold InsertSound critbitInsert critbitInsertInplace
  rcases insertPrepare_kept H hk v mnode mstr with ⟨e, -⟩ | ⟨h₁, s, p, T', new, e, P, -⟩
  · rw [e]
    exact ⟨1, h, rfl, .inl ⟨rfl, rfl⟩⟩
  · obtain ⟨h', hs, ⟨x, hx, hp⟩, -, hrep⟩ := P.linked H
    obtain ⟨b, hb, t', rfl, hl⟩ := P.leaf
    have hr := hrep t' rfl
    refine ⟨0, h', ?_, .inr ⟨rfl, b, x, P.fresh b hb, Heap.str_ok (hr.leaf hl), Heap.root_ok hx, ?_⟩⟩
    · rw [e, ok_bind]
      show (h₁.store s p >>= fun h => pure (0, h)) = _
      rw [hs]
      rfl
    · rw [hp]
      exact below_leaf hr hl

/-! ## insertions that give up -/

/-- if the comparison stops within the keys of the tree then it has seen what the walk has seen -/
theorem seen_eq_compared (hk : strlen (compared k) < 2147483648) : seen k = compared k := by
  rw [strlen_compared] at hk
  have hn : sizeT (int32 (strlen k)) = strlen k % 4294967296 := by
    unfold sizeT int32
    omega
  unfold seen compared
  rw [hn, uint32_int32]

/-- a failing `malloc`, or a stored key that looks the same to the comparison -/
theorem insertPrepare_up (H : Holds h root T) (v : Val)
    (hu : mallocs h root mnode mstr = none ∨ compared k ∈ keysOf T) :
    insertPrepare h root k.buf (int32 (strlen k)) v mnode mstr = .ok (1, h, none) := by
  cases T with
  | none =>
    have hm := hu.resolve_right List.not_mem_nil
    rw [mallocs_empty H, Option.map_eq_none_iff] at hm
    rw [insertPrepare_empty H, allocString_none hm]
    rfl
  | some t =>
    rw [insertPrepare_tree H]
    rcases compareKeys_firstDiff (t.nearest Key.bit (seen k)).2.1 k with
      ⟨-, hc⟩ | ⟨b, hbx, i, -, y, hd, -, hc⟩
    · rw [hc]
      rfl
    · rw [hc, ok_bind]
      have hm := hu.resolve_right fun hmem => by
        have hshort := (H.good t rfl).short _ hmem
        unfold Short at hshort
        rw [seen_eq_compared (by omega), nearest_of_mem (H.good t rfl).wf hmem] at hd
        exact hd.2 rfl
      exact spliceNode_none H hm hbx _ _ v y

theorem insertSound_up (H : Holds h root T) (v : Val)
    (hu : mallocs h root mnode mstr = none ∨ compared k ∈ keysOf T) :
    InsertSound h root k v mnode mstr := by
  unfold InsertSound critbitInsert critbitInsertInplace
  rw [insertPrepare_up H v hu]
  exact ⟨1, h, rfl, .inl ⟨rfl, rfl⟩⟩

/-! ## lengths that are lost -/

/-- **A length that is lost shows in the copy**: `alloc_string` is undefined, or it copies something
else than the key with its terminator. -/
theorem allocString_lost (hk : ¬ LengthKept k) {o : Option Addr} {b : Addr}
    (hg : h.grant o = some b) (v : Val) :
    (∃ e, allocString h o k.buf (int32 (strlen k)) v = .error e) ∨
      ∃ s, s ≠ k.buf ∧ allocString h o k.buf (int32 (strlen k)) v =
        .ok (some (.str b, h.insert b (.str ⟨v, s⟩))) := by
  rw [allocString_some hg]
  by_cases h1 : sizeT (int32 (strlen k) + 8 + 1) < 8
  · rw [if_pos h1]
    exact .inl ⟨_, rfl⟩
  rw [if_neg h1]
  by_cases h2 : 2147483647 < int32 (strlen k) + 1
  · rw [if_pos h2]
    exact .inl ⟨_, rfl⟩
  rw [if_neg h2]
  by_cases h3 : k.buf.length < sizeT (int32 (strlen k) + 1) ∨
      sizeT (int32 (strlen k) + 8 + 1) < 8 + sizeT (int32 (strlen k) + 1)
  · rw [if_pos h3]
    exact .inl ⟨_, rfl⟩
  rw [if_neg h3]
  refine .inr ⟨_, fun e => hk ?_, rfl⟩
  -- a copy of the right length has been made with the right size
  have hlen := congrArg List.length e
  rw [List.length_take, Key.buf_length] at hlen
  rw [Key.buf_length] at h3
  have hsize : sizeT (int32 (strlen k) + 8 + 1) = strlen k + 9 := by
    unfold sizeT at *
    omega
  exact ⟨by omega, hsize⟩

/-- new string blocks hold something else than the key -/
def Lost (h : Heap) (k : Key) (h' : Heap) : Prop :=
  ∀ a y, a ∉ h → h'.lookup a = some (.str y) → y.chars ≠ k.buf

theorem lost_insert {h₀ : Heap} {b : Addr} {s : List UInt8} (hs : s ≠ k.buf)
    (hf : ∀ a ∉ h, ∀ y, h₀.lookup a ≠ some (.str y)) :
    Lost h k (h₀.insert b (.str ⟨v, s⟩)) := by
  intro a y ha hy
  by_cases e : a = b
  · rw [e, Finmap.lookup_insert] at hy
    cases hy
    exact hs
  · rw [Finmap.lookup_insert_of_ne _ e] at hy
    exact absurd hy (hf a ha y)

theorem Lost.store {h₁ h' : Heap} {s : Slot} {p : Ptr} (hl : Lost h k h₁)
    (hs : h₁.store s p = .ok h') : Lost h k h' :=
  fun a y ha hy => hl a y ha (Heap.store_str_inv hs hy)

theorem Lost.node {h₁ : Heap} {a : Addr} {n : Node} (hl : Lost h k h₁) :
    Lost h k (h₁.insert a (.node n)) := by
  intro c y hc hy
  by_cases e : c = a
  · rw [e, Finmap.lookup_insert] at hy
    cases hy
  · rw [Finmap.lookup_insert_of_ne _ e] at hy
    exact hl c y hc hy

theorem not_insertSound_of_lost (hl : ∀ ret h', critbitInsert h root k v mnode mstr = .ok (ret, h') →
    ret = 0 ∧ Lost h k h') : ¬ InsertSound h root k v mnode mstr := by
  intro hs
  obtain ⟨ret, h', e, hs⟩ := hs
  obtain ⟨h0, hlost⟩ := hl ret h' e
  rcases hs with ⟨h1, -⟩ | ⟨-, a, r, ha, hstr, -⟩
  · omega
  · obtain ⟨b, e', hb⟩ := Heap.str_inv hstr
    cases e'
    exact hlost a _ ha hb rfl

/-- what `insertPrepare` has made of a lost key, it publishes -/
theorem lost_of_prepare
    (hl : ∀ r, insertPrepare h root k.buf (int32 (strlen k)) v mnode mstr = .ok r →
      r.1 = 0 ∧ Lost h k r.2.1) : ¬ InsertSound h root k v mnode mstr := by
  apply not_insertSound_of_lost
  intro ret h' e
  obtain ⟨⟨c, h₁, w⟩, e₁, e₂⟩ := ok_of_bind e
  obtain ⟨hc, hlost⟩ := hl _ e₁
  cases w with
  | none =>
    cases e₂
    exact ⟨hc, hlost⟩
  | some w =>
    obtain ⟨h₂, hst, e₃⟩ := ok_of_bind e₂
    cases e₃
    exact ⟨hc, hlost.store hst⟩

theorem lost_splice {t : MTree} (hk : ¬ LengthKept k) (H : Holds h root (some t)) {new : List Addr}
    (hm : mallocs h root mnode mstr = some new) {x : Key} {b : Nat} (hb : b ≤ strlen x) {y : UInt8}
    {r : Int × Heap × Option (Slot × Ptr)}
    (e : spliceNode h root k.buf (int32 (strlen k)) v mnode mstr x.buf b y = .ok r) :
    r.1 = 0 ∧ Lost h k r.2.1 := by
  obtain ⟨a, c, hga, hgc, rfl⟩ := mallocs_some H hm
  unfold spliceNode at e
  rw [readAt_buf hb, ok_bind] at e
  simp only [Heap.malloc_some hga] at e
  rcases allocString_lost hk hgc v with ⟨err, ha⟩ | ⟨s, hs, ha⟩
  · rw [ha] at e
    cases e
  · rw [ha, ok_bind] at e
    obtain ⟨slot, -, e⟩ := ok_of_bind e
    obtain ⟨old, -, e⟩ := ok_of_bind e
    obtain ⟨h₂, hst, e⟩ := ok_of_bind e
    cases e
    have hraw : ∀ a' ∉ h, ∀ y', (Finmap.insert a (Block.raw 24) h).lookup a' ≠ some (.str y') := by
      intro a' ha' y' hy'
      by_cases e' : a' = a
      · rw [e', Finmap.lookup_insert] at hy'
        cases hy'
      · rw [Finmap.lookup_insert_of_ne _ e'] at hy'
        exact ha' (Heap.mem_of_lookup hy')
    exact ⟨rfl, (Lost.node (lost_insert hs hraw)).store hst⟩

/-- **A key whose length is lost is not stored right**, once the insertion gets to the copy. -/
theorem not_insertSound_lost (hk : ¬ LengthKept k) (H : Holds h root T) (v : Val) {new : List Addr}
    (hm : mallocs h root mnode mstr = some new) (hno : compared k ∉ keysOf T) :
    ¬ InsertSound h root k v mnode mstr := by
  apply lost_of_prepare
  intro r e
  cases T with
  | none =>
    rw [mallocs_empty H] at hm
    obtain ⟨b, hb, -⟩ := Option.map_eq_some_iff.mp hm
    rw [insertPrepare_empty H] at e
    rcases allocString_lost hk hb v with ⟨err, ha⟩ | ⟨s, hs, ha⟩
    · rw [ha] at e
      cases e
    · rw [ha] at e
      cases e
      exact ⟨rfl, lost_insert hs fun a ha y hy => ha (Heap.mem_of_lookup hy)⟩
  | some t =>
    rw [insertPrepare_tree H] at e
    rcases compareKeys_firstDiff (t.nearest Key.bit (seen k)).2.1 k with
      ⟨h1, -⟩ | ⟨b, hbx, i, -, y, -, -, hc⟩
    · exact absurd (h1 ▸ nearest_key_mem Key.bit (seen k) t) hno
    · rw [hc, ok_bind] at e
      exact lost_splice hk H hm hbx e

/-! ## all lengths -/

theorem bytes_compared (k : Key) : (compared k).bytes = k.bytes.take (strlen k % 4294967296) := by
  unfold compared
  rw [Key.bytes_take, uint32_int32]

/-- **When an insertion is sound**: the length survives the conversions, a `malloc` fails, or what the
narrowed length leaves of the key is itself stored. -/
theorem insertSound_iff {m : Map} (hr : Reached root h m) (k : Key) (v : Val)
    (mnode mstr : Option Addr) : InsertSound h root k v mnode mstr ↔
      LengthKept k ∨ mallocs h root mnode mstr = none ∨
        ∃ x, m x ≠ none ∧ x.bytes = k.bytes.take (strlen k % 4294967296) := by
  obtain ⟨T, O, rfl⟩ := hr.owns
  have hcut : (∃ x, valueOf T x ≠ none ∧ x.bytes = k.bytes.take (strlen k % 4294967296)) ↔
      compared k ∈ keysOf T := by
    rw [← bytes_compared]
    constructor
    · intro hx
      obtain ⟨x, hx, e⟩ := hx
      rw [← Key.ext_bytes e]
      exact not_not.mp fun h1 => hx (valueOf_eq_none.mpr h1)
    · intro hx
      exact ⟨_, fun h1 => valueOf_eq_none.mp h1 hx, rfl⟩
  rw [hcut]
  constructor
  · intro hs
    by_contra hno
    rw [not_or, not_or] at hno
    obtain ⟨hk, hm, hc⟩ := hno
    obtain ⟨new, hm⟩ := Option.ne_none_iff_exists'.mp hm
    exact not_insertSound_lost hk O.toHolds v hm hc hs
  · intro hs
    rcases hs with hk | hu
    · exact insertSound_kept O.toHolds hk v mnode mstr
    · exact insertSound_up O.toHolds v hu

/-- an insertion that gets to the copy: no `malloc` fails, and the key is not stored -/
theorem insertSound_two : ∃ (h : Heap) (m : Map) (mnode mstr : Option Addr), Reached 0 h m ∧
    m ⟨[97], by decide⟩ = some 5 ∧ m ⟨[98], by decide⟩ = none ∧
    (mallocs h 0 mnode mstr).isSome = true ∧
    (InsertSound h 0 ⟨[98], by decide⟩ 7 mnode mstr ↔ LengthKept ⟨[98], by decide⟩ ∨
      mallocs h 0 mnode mstr = none ∨ ∃ x, m x ≠ none ∧
        x.bytes = [98].take (strlen ⟨[98], by decide⟩ % 4294967296)) := by
  obtain ⟨h, hr⟩ := reached_two
  obtain ⟨T, O, -⟩ := hr.owns
  obtain ⟨mnode, mstr, hm⟩ := exists_granted O.toHolds
  exact ⟨h, _, mnode, mstr, hr, by decide, by decide, hm,
    insertSound_iff hr ⟨[98], by decide⟩ 7 mnode mstr⟩

/-- `2 ^ 32 + 1` characters -/
def longKey : Key :=
  ⟨List.replicate 4294967297 97, fun h => absurd (List.eq_of_mem_replicate h) (by decide)⟩

theorem not_insertSound_long :
    ¬ ∀ (root : Addr) (h : Heap) (m : Map) (k : Key) (v : Val) (mnode mstr : Option Addr),
      Reached root h m → InsertSound h root k v mnode mstr := by
  intro H
  have hnew := critbitNew_fresh 0
  have O := critbitNew_owns hnew
  obtain ⟨mnode, mstr, hm⟩ := exists_granted O.toHolds
  obtain ⟨new, hm⟩ := Option.isSome_iff_exists.mp hm
  have hlen : strlen longKey = 4294967297 := List.length_replicate
  have hlost : ¬ LengthKept longKey := by
    unfold LengthKept
    rw [hlen]
    decide
  exact not_insertSound_lost hlost O.toHolds 5 hm List.not_mem_nil
    (H 0 _ _ longKey 5 mnode mstr (.new hnew))

end Critbit

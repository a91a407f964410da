import Critbit.Run.Blocks
import Critbit.Trie.Canonical

/-!
# History independence

`treeOf` reads the tree at a root out of the heap: `byte` and `otherbits` of every node, key and value
of every leaf, no addresses.  Two runs that end with the same bindings end with the same tree
(`history_independent`); the order of insertions does not matter, and a deletion right after the
insertion of its key restores every block.
-/

namespace Critbit
open Crit CTree

/-! ## the tree at a root -/

inductive Image where
  | leaf (chars : List UInt8) (value : Val)
  | node (byte : Int) (otherbits : UInt8) (child0 child1 : Image)
deriving DecidableEq

def imageOf (h : Heap) : Nat → Ptr → M Image
  | 0, _ => .error .diverge
  | fuel + 1, .node a => do
    let n ← h.node a
    let c0 ← imageOf h fuel (n.child false)
    let c1 ← imageOf h fuel (n.child true)
    pure (.node n.byte n.otherbits c0 c1)
  | _ + 1, p => do
    let s ← h.str p
    pure (.leaf s.chars s.value)

/-- the tree at `root`; `none` if it is empty -/
def treeOf (h : Heap) (root : Addr) : M (Option Image) := do
  let r ← h.root root
  if r.head = .null then pure none
  else do
    let i ← imageOf h (h.size + 1) r.head
    pure (some i)

/-- what `treeOf` reads, on the side of the tree -/
def image {A : Type} : CTree A Nat Key Val → Image
  | leaf _ k v => .leaf k.buf v
  | node _ i c => .node (i / 8 : Nat) (mask (i % 8)) (image (c false)) (image (c true))

/-- addresses do not show -/
theorem image_shape {A : Type} (t : CTree A Nat Key Val) : image t.shape = image t := by
  induction t with
  | leaf a k v => rfl
  | node a i c ih =>
    rw [shape_node, image, image, ih, ih]

section
variable {h : Heap} {root : Addr} {T : Option MTree}

theorem imageOf_rep {t : MTree} (hr : Rep h t) {fuel : Nat} (hf : t.forks < fuel) :
    imageOf h fuel (ptr t) = .ok (image t) := by
  induction t generalizing fuel with
  | leaf a k v =>
    obtain ⟨f, rfl⟩ := Nat.exists_eq_add_one_of_ne_zero (Nat.ne_zero_of_lt hf)
    show (h.str (.str a) >>= fun s => .ok (Image.leaf s.chars s.value)) = _
    rw [Heap.str_ok hr]
    rfl
  | node a i c ih =>
    obtain ⟨f, rfl⟩ := Nat.exists_eq_add_one_of_ne_zero (Nat.ne_zero_of_lt hf)
    unfold forks at hf
    have hf0 : (c false).forks < f := by omega
    have hf1 : (c true).forks < f := by omega
    have h0 := ih false (hr.child false) hf0
    have h1 := ih true (hr.child true) hf1
    show (h.node a >>= fun n => imageOf h f (n.child false) >>= fun c0 =>
      imageOf h f (n.child true) >>= fun c1 => .ok (Image.node n.byte n.otherbits c0 c1)) = _
    rw [Heap.node_ok hr.node, ok_bind]
    show (imageOf h f (ptr (c false)) >>= _) = _
    rw [h0, ok_bind]
    show (imageOf h f (ptr (c true)) >>= _) = _
    rw [h1]
    rfl

theorem treeOf_holds (H : Holds h root T) : treeOf h root = .ok (T.map image) := by
  obtain ⟨x, hx, hp⟩ := H.record
  unfold treeOf
  rw [Heap.root_ok hx, ok_bind]
  cases T with
  | none => exact if_pos hp
  | some t =>
    have hp' : x.head = ptr t := hp
    rw [hp', if_neg (ptr_ne_null t)]
    show (imageOf h (h.size + 1) (ptr t) >>= _) = _
    rw [imageOf_rep (H.rep t rfl) (Nat.lt_succ_of_lt H.forks_lt)]
    rfl

end

/-- **Trees of the same map look the same.** -/
theorem image_unique {S T : Option MTree} (hS : ∀ t ∈ S, Good t) (hT : ∀ t ∈ T, Good t)
    (h : valueOf S = valueOf T) : S.map image = T.map image := by
  have hb : ∀ b, b ∈ bindsOf S ↔ b ∈ bindsOf T := by
    rintro ⟨k, v⟩
    rw [← valueOf_eq_some hS, ← valueOf_eq_some hT, h]
  have hnone : S = none ↔ T = none := by
    rw [← not_iff_not, ← Ne, ← Ne, ← exists_bound, ← exists_bound, h]
  cases S with
  | none => rw [hnone.mp rfl]
  | some s =>
    cases T with
    | none => cases hnone.mpr rfl
    | some t =>
      have e := shape_unique (hS s rfl).wf (hT t rfl).wf hb
      rw [Option.map_some, Option.map_some, ← image_shape s, ← image_shape t, e]

/-! ## insertions in a row -/

/-- the bindings of the list are inserted one after another, and every call returns `0` -/
inductive InsertAll (root : Addr) : Heap → List (Key × Val) → Heap → Prop
  | nil (h : Heap) : InsertAll root h [] h
  | cons {h h₁ h₂ : Heap} {k : Key} {v : Val} {l : List (Key × Val)} {mnode mstr : Option Addr}
      (e : critbitInsert h root k v mnode mstr = .ok (0, h₁)) (hl : InsertAll root h₁ l h₂) :
      InsertAll root h ((k, v) :: l) h₂

/-- new keys can be inserted in any order -/
theorem exists_insertAll {root : Addr} {h : Heap} {T : Option MTree} (O : Owns h root T)
    (l : List (Key × Val)) (hl : ∀ b ∈ l, Short b.1) (hn : (keysOf T ++ l.map Prod.fst).Nodup) :
    ∃ h', InsertAll root h l h' := by
  induction l generalizing h T with
  | nil => exact ⟨h, .nil h⟩
  | cons b l ih =>
    obtain ⟨mnode, mstr, hm⟩ := exists_granted O.toHolds
    rcases critbitInsert_owns O (hl b List.mem_cons_self) b.2 mnode mstr with
      ⟨-, hc⟩ | ⟨g, S, new, e, hi, O', -⟩
    · rcases hc with hc | hc
      · exact absurd List.mem_cons_self ((List.disjoint_of_nodup_append hn) hc)
      · rw [hc] at hm
        cases hm
    · obtain ⟨h', hi'⟩ := ih O' (fun c hc => hl c (List.mem_cons_of_mem _ hc)) <|
        (((hi.keys.append_right _).trans List.perm_middle.symm).nodup_iff).mpr hn
      exact ⟨h', .cons e hi'⟩

theorem insertAll_binds {root : Addr} {h h' : Heap} {l : List (Key × Val)} {T : Option MTree}
    (O : Owns h root T) (hi : InsertAll root h l h') (hl : ∀ b ∈ l, Short b.1) :
    ∃ T', Owns h' root T' ∧ (bindsOf T').Perm (l ++ bindsOf T) := by
  induction hi generalizing T with
  | nil h => exact ⟨T, O, List.Perm.refl _⟩
  | @cons h h₁ h₂ k v l mnode mstr e hi ih =>
    rcases critbitInsert_owns O (hl _ List.mem_cons_self) v mnode mstr with
      ⟨e', -⟩ | ⟨g, S, new, e', hins, O', -⟩
    · cases e.symm.trans e'
    · obtain ⟨-, rfl⟩ := Prod.mk.inj (Except.ok.inj (e.symm.trans e'))
      obtain ⟨T', O₂, hp⟩ := ih O' fun b hb => hl b (List.mem_cons_of_mem _ hb)
      exact ⟨T', O₂, (hp.trans (hins.binds.append_left l)).trans List.perm_middle⟩

/-- the map of a tree depends on its bindings only, not on their order -/
theorem valueOf_congr {S T : Option MTree} (hS : ∀ t ∈ S, Good t) (hT : ∀ t ∈ T, Good t)
    (h : (bindsOf S).Perm (bindsOf T)) : valueOf S = valueOf T := by
  funext k
  refine Option.ext fun v => ?_
  rw [valueOf_eq_some hS, valueOf_eq_some hT, h.mem_iff]

/-- a deletion right after the insertion of its key -/
theorem delete_after_insert {root : Addr} {h h' : Heap} {T : Option MTree} (O : Owns h root T)
    {k : Key} (hk : Short k) {v : Val} {mnode mstr : Option Addr}
    (e : critbitInsert h root k v mnode mstr = .ok (0, h')) :
    ∃ h'', critbitDelete h' root k = .ok (0, h'') ∧ SameTree root h h'' := by
  rcases critbitInsert_owns O hk v mnode mstr with ⟨e', -⟩ | ⟨g, T', new, e', hi, O', -⟩
  · cases e.symm.trans e'
  · obtain ⟨-, rfl⟩ := Prod.mk.inj (Except.ok.inj (e.symm.trans e'))
    rcases critbitDelete_owns O' k with ⟨hno, -⟩ | ⟨h'', S, old, ed, D, O'', -⟩
    · exact absurd (hi.keys.mem_iff.mpr List.mem_cons_self) hno
    · obtain rfl := hi.back D
      exact ⟨h'', ed, O.sameTree O''⟩

/-- **History independence.**  Runs that end with the same map end with the same tree; in particular
the order of insertions does not matter, and deleting a key just inserted restores every block. -/
theorem history_independent :
    (∀ r₁ r₂ h₁ h₂ m, Reached r₁ h₁ m → Reached r₂ h₂ m →
      ∃ I, treeOf h₁ r₁ = .ok I ∧ treeOf h₂ r₂ = .ok I) ∧
    (∀ r₁ r₂ o₁ o₂ h₁ h₂ g₁ g₂ l₁ l₂, critbitNew ∅ o₁ = .ok (r₁, h₁) →
      critbitNew ∅ o₂ = .ok (r₂, h₂) → InsertAll r₁ h₁ l₁ g₁ → InsertAll r₂ h₂ l₂ g₂ →
      (∀ b ∈ l₁, Short b.1) → l₁.Perm l₂ → ∃ I, treeOf g₁ r₁ = .ok I ∧ treeOf g₂ r₂ = .ok I) ∧
    (∀ root h m k v mnode mstr h', Reached root h m → Short k →
      critbitInsert h root k v mnode mstr = .ok (0, h') →
      ∃ h'', critbitDelete h' root k = .ok (0, h'') ∧ SameTree root h h'') := by
  refine ⟨?_, ?_, ?_⟩
  · intro r₁ r₂ h₁ h₂ m hr₁ hr₂
    obtain ⟨S, O₁, e₁⟩ := hr₁.owns
    obtain ⟨T, O₂, e₂⟩ := hr₂.owns
    refine ⟨S.map image, treeOf_holds O₁.toHolds, ?_⟩
    rw [treeOf_holds O₂.toHolds, image_unique O₁.good O₂.good (e₁.trans e₂.symm)]
  · intro r₁ r₂ o₁ o₂ h₁ h₂ g₁ g₂ l₁ l₂ n₁ n₂ i₁ i₂ hs hp
    obtain ⟨S, O₁, p₁⟩ := insertAll_binds (critbitNew_owns n₁) i₁ hs
    obtain ⟨T, O₂, p₂⟩ := insertAll_binds (critbitNew_owns n₂) i₂ fun b hb =>
      hs b (hp.mem_iff.mpr hb)
    have e := valueOf_congr O₁.good O₂.good ((p₁.trans (hp.append_right _)).trans p₂.symm)
    refine ⟨S.map image, treeOf_holds O₁.toHolds, ?_⟩
    rw [treeOf_holds O₂.toHolds, image_unique O₁.good O₂.good e]
  · intro root h m k v mnode mstr h' hr hk e
    obtain ⟨T, O, -⟩ := hr.owns
    exact delete_after_insert O hk e

/-- two keys in two orders -/
theorem history_independent_two : ∃ g₁ g₂ I,
    InsertAll 0 (newHeap 0) [(⟨[97], by decide⟩, 5), (⟨[97, 98], by decide⟩, 6)] g₁ ∧
    InsertAll 1 (newHeap 1) [(⟨[97, 98], by decide⟩, 6), (⟨[97], by decide⟩, 5)] g₂ ∧
    treeOf g₁ 0 = .ok I ∧ treeOf g₂ 1 = .ok I := by
  obtain ⟨g₁, i₁⟩ := exists_insertAll (critbitNew_owns (critbitNew_fresh 0))
    [(⟨[97], by decide⟩, 5), (⟨[97, 98], by decide⟩, 6)] (by decide) (by decide)
  obtain ⟨g₂, i₂⟩ := exists_insertAll (critbitNew_owns (critbitNew_fresh 1))
    [(⟨[97, 98], by decide⟩, 6), (⟨[97], by decide⟩, 5)] (by decide) (by decide)
  obtain ⟨I, e₁, e₂⟩ := history_independent.2.1 0 1 _ _ _ _ g₁ g₂ _ _ (critbitNew_fresh 0)
    (critbitNew_fresh 1) i₁ i₂ (by decide) (List.Perm.swap _ _ _)
  exact ⟨g₁, g₂, I, i₁, i₂, e₁, e₂⟩

end Critbit

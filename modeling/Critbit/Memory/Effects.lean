import Critbit.Memory.Walks

/-!
# What an insertion and a deletion do to the tree

`Inserted k v T T' new` and `Deleted k T T' old` relate the tree before and after a successful
operation; `new` are the blocks allocated, `old` the blocks unlinked (the leaf first).  Bindings,
blocks and `Good` are followed through both, and a deletion right after an insertion of the same
key leads back to the same tree at the same addresses (`Inserted.back`).
-/

namespace Critbit
open Crit CTree

inductive Inserted (k : Key) (v : Val) : Option MTree → Option MTree → List Addr → Prop
  | first (b : Addr) : Inserted k v none (some (leaf b k v)) [b]
  | splice (t : MTree) (i : Nat) (a b : Addr)
      (hd : FirstDiff Key.bit k (t.nearest Key.bit k).2.1 i) :
      Inserted k v (some t) (some (t.insertAt Key.bit a b k v i)) [a, b]

inductive Deleted (k : Key) : Option MTree → Option MTree → List Addr → Prop
  | last (a : Addr) (v : Val) : Deleted k (some (leaf a k v)) none [a]
  | pull (t : MTree) (C : List (Frame Addr Nat Key Val)) (g : Frame Addr Nat Key Val)
      (hk : (t.nearest Key.bit k).2.1 = k) (hg : t.lastFork Key.bit k = some (C, g)) :
      Deleted k (some t) (some (fill C (sibling g))) [(t.nearest Key.bit k).1, g.a]

variable {k : Key} {v : Val} {T T' : Option MTree} {new old : List Addr}

theorem nodup_keysOf (hT : ∀ t ∈ T, Good t) : (keysOf T).Nodup := by
  cases T with
  | none => exact List.nodup_nil
  | some t => exact (hT t rfl).wf.nodup_keys

/-! ## insertion -/

theorem Inserted.annots (hi : Inserted k v T T' new) : (annotsOf T').Perm (new ++ annotsOf T) := by
  cases hi with
  | first b => exact List.Perm.refl _
  | splice t i a b hd => exact annots_insertAt a b v t

theorem Inserted.binds (hi : Inserted k v T T' new) :
    (bindsOf T').Perm ((k, v) :: bindsOf T) := by
  cases hi with
  | first b => exact List.Perm.refl _
  | splice t i a b hd => exact (leaves_insertAt a b v t).map _

theorem Inserted.keys (hi : Inserted k v T T' new) : (keysOf T').Perm (k :: keysOf T) := by
  cases hi with
  | first b => exact List.Perm.refl _
  | splice t i a b hd => exact (leaves_insertAt a b v t).map _

/-- only a key that is not there is inserted -/
theorem Inserted.not_mem (hi : Inserted k v T T' new) (hT : ∀ t ∈ T, Good t) : k ∉ keysOf T := by
  cases hi with
  | first b => exact List.not_mem_nil
  | splice t i a b hd =>
    intro hk
    rw [nearest_of_mem (hT t rfl).wf hk] at hd
    exact hd.2 rfl

theorem Inserted.good (hi : Inserted k v T T' new) (hk : Short k) (hT : ∀ t ∈ T, Good t) :
    ∀ t ∈ T', Good t := by
  have hkeys := hi.keys
  cases hi with
  | first b =>
    rintro t ⟨rfl⟩
    exact ⟨trivial, fun x hx => by rwa [keys_leaf, List.mem_singleton.mp hx] at *⟩
  | splice t i a b hd =>
    rintro s ⟨rfl⟩
    refine ⟨insertAt_wf (hT t rfl).wf hd, fun x hx => ?_⟩
    rcases List.mem_cons.mp (hkeys.mem_iff.mp hx) with rfl | e
    · exact hk
    · exact (hT t rfl).short x e

/-! ## deletion -/

theorem Deleted.annots (hd : Deleted k T T' old) : (annotsOf T).Perm (old ++ annotsOf T') := by
  cases hd with
  | last a v => exact List.Perm.refl _
  | pull t C g hk hg => exact (annots_delete hg).trans (List.Perm.swap _ _ _)

theorem Deleted.leaf_mem (hd : Deleted k T T' old) :
    ∃ a v, old.head? = some a ∧ (bindsOf T).Perm ((k, v) :: bindsOf T') := by
  cases hd with
  | last a v => exact ⟨a, v, rfl, List.Perm.refl _⟩
  | pull t C g hk hg =>
    refine ⟨_, (t.nearest Key.bit k).2.2, rfl, ?_⟩
    have hs : t.delete Key.bit k = some (fill C (sibling g)) := by rw [delete, hg]; rfl
    have hp := (leaves_delete hs).map fun l => l.2
    rw [List.map_cons, show (t.nearest Key.bit k).2 = (k, (t.nearest Key.bit k).2.2) from
      Prod.ext hk rfl] at hp
    exact hp

theorem keysOf_eq (T : Option MTree) : keysOf T = (bindsOf T).map Prod.fst := by
  cases T with
  | none => rfl
  | some t => exact keys_eq_binds t

theorem Deleted.keys (hd : Deleted k T T' old) : (keysOf T).Perm (k :: keysOf T') := by
  obtain ⟨a, v, -, hb⟩ := hd.leaf_mem
  rw [keysOf_eq, keysOf_eq]
  exact hb.map _

theorem Deleted.not_mem (hd : Deleted k T T' old) (hT : ∀ t ∈ T, Good t) : k ∉ keysOf T' := by
  have hn := nodup_keysOf hT
  rw [hd.keys.nodup_iff] at hn
  exact (List.nodup_cons.mp hn).1

theorem Deleted.mem (hd : Deleted k T T' old) : k ∈ keysOf T :=
  hd.keys.mem_iff.mpr List.mem_cons_self

theorem Deleted.good (hd : Deleted k T T' old) (hT : ∀ t ∈ T, Good t) : ∀ t ∈ T', Good t := by
  have hkeys := hd.keys
  cases hd with
  | last a v => intro t ht; cases ht
  | pull t C g hk hg =>
    rintro s ⟨rfl⟩
    have hs : t.delete Key.bit k = some (fill C (sibling g)) := by rw [delete, hg]; rfl
    refine ⟨delete_wf (hT t rfl).wf hs, fun x hx => ?_⟩
    exact (hT t rfl).short x (hkeys.mem_iff.mpr (List.mem_cons_of_mem _ hx))

/-- **A deletion right after the insertion of the same key restores the tree**, addresses
included. -/
theorem Inserted.back {S : Option MTree} (hi : Inserted k v T T' new) (hd : Deleted k T' S old) :
    S = T := by
  cases hi with
  | first b =>
    cases hd with
    | last => rfl
    | pull _ C g hk hg => cases hg
  | splice t i a b hdiff =>
    have hback : (t.insertAt Key.bit a b k v i).delete Key.bit k = some t :=
      delete_insertAt a b v i t
    generalize t.insertAt Key.bit a b k v i = u at hback hd
    cases hd with
    | last a' v' => cases hback
    | pull _ C g hk hg =>
      rw [delete, hg] at hback
      exact hback

/-! ## bindings as a map -/

/-- the value bound to `k` -/
def valueOf (T : Option MTree) (k : Key) : Option Val := (bindsOf T).lookup k

/-- a key that is bound once is looked up to its value -/
theorem lookup_of_mem {l : List (Key × Val)} (hn : (l.map Prod.fst).Nodup) (h : (k, v) ∈ l) :
    l.lookup k = some v := by
  induction l with
  | nil => exact absurd h List.not_mem_nil
  | cons b l ih =>
    rw [List.map_cons, List.nodup_cons] at hn
    obtain ⟨x, w⟩ := b
    rcases List.mem_cons.mp h with e | e
    · obtain ⟨rfl, rfl⟩ := Prod.mk.inj e
      exact List.lookup_cons_self
    · have hne : k ≠ x := fun e' => hn.1 (e' ▸ List.mem_map.mpr ⟨(k, v), e, rfl⟩)
      rw [List.lookup_cons, beq_eq_false_iff_ne.mpr hne]
      exact ih hn.2 e

theorem valueOf_eq_some (hT : ∀ t ∈ T, Good t) : valueOf T k = some v ↔ (k, v) ∈ bindsOf T := by
  have hn := nodup_keysOf hT
  rw [keysOf_eq] at hn
  refine ⟨fun h => ?_, lookup_of_mem hn⟩
  obtain ⟨l₁, l₂, h1, -⟩ := List.lookup_eq_some_iff.mp h
  rw [h1]
  exact List.mem_append_right _ List.mem_cons_self

theorem valueOf_eq_none : valueOf T k = none ↔ k ∉ keysOf T := by
  rw [valueOf, List.lookup_eq_none_iff, keysOf_eq, List.mem_map]
  constructor
  · rintro h ⟨b, hb, rfl⟩
    exact absurd (h b hb) (by simp)
  · intro h b hb
    simp only [bne_iff_ne]
    exact fun e => h ⟨b, hb, e.symm⟩

/-- binding a key in front of a map is an update -/
theorem valueOf_perm {S : Option MTree} (hS : ∀ t ∈ S, Good t) (hT : ∀ t ∈ T, Good t)
    (hp : (bindsOf S).Perm ((k, v) :: bindsOf T)) :
    valueOf S = Function.update (valueOf T) k (some v) := by
  have hnot : k ∉ keysOf T := by
    have hn := nodup_keysOf hS
    rw [keysOf_eq, (hp.map _).nodup_iff, List.map_cons, ← keysOf_eq] at hn
    exact (List.nodup_cons.mp hn).1
  funext x
  refine Option.ext fun w => ?_
  rw [valueOf_eq_some hS, hp.mem_iff, List.mem_cons, ← valueOf_eq_some hT]
  by_cases e : x = k
  · subst e
    rw [Function.update_self, valueOf_eq_none.mpr hnot]
    constructor
    · rintro (h | h)
      · rw [(Prod.mk.inj h).2]
      · cases h
    · intro h
      rw [Option.some.inj h]
      exact .inl rfl
  · rw [Function.update_of_ne e]
    exact ⟨fun h => h.resolve_left fun h' => e (Prod.mk.inj h').1, .inr⟩

theorem Inserted.valueOf (hi : Inserted k v T T' new) (hk : Short k) (hT : ∀ t ∈ T, Good t) :
    valueOf T' = Function.update (valueOf T) k (some v) :=
  valueOf_perm (hi.good hk hT) hT hi.binds

theorem Deleted.valueOf (hd : Deleted k T T' old) (hT : ∀ t ∈ T, Good t) :
    valueOf T' = Function.update (valueOf T) k none := by
  obtain ⟨a, v, -, hp⟩ := hd.leaf_mem
  rw [valueOf_perm hT (hd.good hT) hp, Function.update_idem,
    ← valueOf_eq_none.mpr (hd.not_mem hT),
    Function.update_eq_self]

end Critbit

import Critbit.Run.Order

/-!
# `critbit_clear`

`clear_node` frees the blocks of a tree one after another (`clearNode_rep`), the leaves in the order
in which `visit` meets them (`visit_postorder`), each block once and nothing else
(`freeAll_lookup`).  So `critbit_clear` leaves nothing of a non-empty tree, but it returns before
`free(root)` when the tree is empty (`released_iff`).  `free` of a block that is not live is a fault,
and `malloc` returns no live block; a run that comes to an end with no block live has freed each
block exactly once.
-/

namespace Crit.CTree
variable {A ι K V : Type*}

/-- the annotations, that of a fork behind those below it -/
def postorder : CTree A ι K V → List A
  | leaf a _ _ => [a]
  | node a _ c => (c false).postorder ++ (c true).postorder ++ [a]

theorem postorder_node (a : A) (i : ι) (c : Bool → CTree A ι K V) :
    (node a i c).postorder = (c false).postorder ++ (c true).postorder ++ [a] := rfl

theorem postorder_perm (t : CTree A ι K V) : t.postorder.Perm t.annots := by
  induction t with
  | leaf a k v => exact .refl _
  | node a i c ih =>
    rw [postorder_node]
    exact (List.perm_append_singleton a _).trans (((ih false).append (ih true)).cons a)

end Crit.CTree

namespace Critbit
open Crit CTree

variable {h : Heap} {root : Addr} {m : Map}

/-! ## freeing a list of blocks -/

def freeAll (h : Heap) (l : List Addr) : M Heap := l.foldlM Heap.free h

theorem freeAll_cons (h : Heap) (a : Addr) (l : List Addr) :
    freeAll h (a :: l) = h.free a >>= fun h => freeAll h l := List.foldlM_cons

theorem freeAll_append (h : Heap) (l l' : List Addr) :
    freeAll h (l ++ l') = freeAll h l >>= fun h => freeAll h l' := List.foldlM_append

theorem freeAll_singleton (h : Heap) (a : Addr) : freeAll h [a] = h.free a := by
  rw [freeAll_cons]
  exact bind_pure _

/-- **Each block of the list is freed, and nothing else.** -/
theorem freeAll_lookup {l : List Addr} (hn : l.Nodup) (hl : ∀ a ∈ l, a ∈ h) :
    ∃ h', freeAll h l = .ok h' ∧ ∀ b, h'.lookup b = if b ∈ l then none else h.lookup b := by
  induction l generalizing h with
  | nil => exact ⟨h, rfl, fun b => (if_neg List.not_mem_nil).symm⟩
  | cons a l ih =>
    obtain ⟨ha, hn⟩ := List.nodup_cons.mp hn
    have hold : ∀ b, b ≠ a → Finmap.lookup b (h.erase a) = h.lookup b := fun b hb =>
      Finmap.lookup_erase_ne hb
    obtain ⟨h', e, hlook⟩ := ih (h := h.erase a) hn fun b hb => by
      have hba : b ≠ a := fun e => ha (e ▸ hb)
      rw [Finmap.mem_iff, hold b hba, ← Finmap.mem_iff (s := h)]
      exact hl b (List.mem_cons_of_mem _ hb)
    refine ⟨h', ?_, fun b => ?_⟩
    · rw [freeAll_cons, Heap.free_ok (hl a List.mem_cons_self), ok_bind, e]
    · rw [hlook]
      by_cases hba : b = a
      · rw [hba, if_neg ha, if_pos List.mem_cons_self]
        exact Finmap.lookup_erase a h
      · rw [hold b hba]
        simp only [List.mem_cons, hba, false_or]

/-! ## freeing a tree -/

/-- **`clear_node` frees the blocks of the tree, leaves first.** -/
theorem clearNode_rep {t : MTree} (hr : Rep h t) (hn : t.annots.Nodup) {fuel : Nat}
    (hf : t.forks < fuel) : clearNode fuel h (ptr t) = freeAll h t.postorder := by
  induction t generalizing h fuel with
  | leaf a k v =>
    obtain ⟨f, rfl⟩ := Nat.exists_eq_add_one_of_ne_zero (Nat.ne_zero_of_lt hf)
    exact (freeAll_singleton h a).symm
  | node a i c ih =>
    obtain ⟨f, rfl⟩ := Nat.exists_eq_add_one_of_ne_zero (Nat.ne_zero_of_lt hf)
    obtain ⟨ha, hc⟩ := List.nodup_cons.mp hn
    obtain ⟨hn0, hn1, hdisj⟩ := List.nodup_append'.mp hc
    have hp0 := postorder_perm (c false)
    -- the first call leaves the node and the second child alone
    obtain ⟨h₀, e₀, hl₀⟩ := freeAll_lookup (hp0.nodup_iff.mpr hn0)
      fun b hb => (hr.child false).mem (hp0.mem_iff.mp hb)
    have hkeep : ∀ b, b ∉ (c false).annots → h₀.lookup b = h.lookup b := fun b hb => by
      rw [hl₀, if_neg fun hb' => hb (hp0.mem_iff.mp hb')]
    have hnode₀ : h₀.lookup a = some (.node (nodeOf i c)) :=
      (hkeep a fun hb => ha (List.mem_append_left _ hb)).trans hr.node
    have hr₀ : Rep h₀ (c true) := (hr.child true).frame fun b hb =>
      hkeep b fun hb' => hdisj hb' hb
    show (h.node a >>= fun n => clearNode f h (n.child false) >>= fun h => h.node a >>= fun n =>
      clearNode f h (n.child true) >>= fun h => h.free a) = _
    rw [Heap.node_ok hr.node, ok_bind]
    show (clearNode f h (ptr (c false)) >>= _) = _
    rw [ih false (hr.child _) hn0 (forks_lt_child hf _), e₀, ok_bind, Heap.node_ok hnode₀, ok_bind]
    show (clearNode f h₀ (ptr (c true)) >>= _) = _
    rw [ih true hr₀ hn1 (forks_lt_child hf _), postorder_node, freeAll_append, freeAll_append, e₀,
      ok_bind]
    simp only [freeAll_singleton]

/-- the string in a block, if it is one -/
def strAt (h : Heap) (a : Addr) : Option Str :=
  match h.lookup a with
  | some (.str s) => some s
  | _ => none

theorem postorder_strs {t : MTree} (hr : Rep h t) :
    t.postorder.filterMap (strAt h) = t.binds.map fun b => ⟨b.2, b.1.buf⟩ := by
  induction t with
  | leaf a k v =>
    have e : strAt h a = some ⟨v, k.buf⟩ := by
      unfold strAt
      rw [show h.lookup a = _ from hr]
    show [a].filterMap (strAt h) = _
    rw [List.filterMap_cons_some e]
    rfl
  | node a i c ih =>
    have e : strAt h a = none := by
      unfold strAt
      rw [hr.node]
    rw [postorder_node, List.filterMap_append, List.filterMap_append, List.filterMap_cons_none e,
      ih false (hr.child _), ih true (hr.child _), binds_node, List.map_append]
    exact List.append_nil _

/-- `visit` meets the strings in the order in which `clear_node` frees them -/
theorem visit_postorder {t : MTree} (hr : Rep h t) {fuel : Nat} (hf : t.forks < fuel) :
    visit h fuel (ptr t) = .ok (t.postorder.filterMap (strAt h)) := by
  rw [visit_rep hr hf, postorder_strs hr]

/-! ## the end of a run -/

/-- What `critbit_clear` is to do at the end of a run: it comes to an end, and no block is left. -/
def Released (h : Heap) (root : Addr) : Prop := ∃ h', critbitClear h root = .ok h' ∧ ∀ b, b ∉ h'

theorem released_tree {t : MTree} (O : Owns h root (some t)) : Released h root := by
  obtain ⟨x, hx, hp⟩ := O.record
  have hp' : x.head = ptr t := hp
  have hr := O.rep t rfl
  have hperm := postorder_perm t
  obtain ⟨hroot, hn⟩ := List.nodup_cons.mp O.nodup
  obtain ⟨h₁, e₁, hl₁⟩ := freeAll_lookup (hperm.nodup_iff.mpr hn)
    fun b hb => hr.mem (hperm.mem_iff.mp hb)
  rw [← clearNode_rep hr hn (Nat.lt_succ_of_lt O.forks_lt)] at e₁
  have hx₁ : h₁.lookup root = some (.root x) := by
    rw [hl₁, if_neg fun hb => hroot (hperm.mem_iff.mp hb)]
    exact hx
  obtain ⟨h₂, hst⟩ : ∃ h₂, h₁.store (.head root) .null = .ok h₂ := ⟨_, Heap.store_head hx₁ .null⟩
  refine ⟨h₂.erase root, ?_, fun b hb => ?_⟩
  · unfold critbitClear
    rw [Heap.root_ok hx, ok_bind, hp', if_neg (ptr_ne_null t), e₁, ok_bind, hst, ok_bind]
    exact Heap.free_ok ((Heap.store_mem hst).mpr (Heap.mem_of_lookup hx₁))
  · -- what is left had been in the heap, beside the root and the tree
    obtain ⟨hne, hb⟩ := Finmap.mem_erase.mp hb
    obtain ⟨y, hy⟩ := Finmap.mem_iff.mp hb
    rw [Heap.store_frame hst hne, hl₁] at hy
    by_cases hbt : b ∈ t.postorder
    · rw [if_pos hbt] at hy
      cases hy
    · rw [if_neg hbt] at hy
      rcases List.mem_cons.mp ((O.live b).mp (Heap.mem_of_lookup hy)) with h1 | h1
      · exact hne h1
      · exact hbt (hperm.mem_iff.mpr h1)

/-- the early return of an empty tree leaves the root record -/
theorem not_released_empty (O : Owns h root none) : ¬ Released h root := by
  intro hrel
  obtain ⟨h', e, hno⟩ := hrel
  obtain ⟨x, hx, hp⟩ := O.record
  have hp' : x.head = .null := hp
  unfold critbitClear at e
  rw [Heap.root_ok hx, ok_bind, if_pos hp'] at e
  cases e
  exact hno root (Heap.mem_of_lookup hx)

/-- **`critbit_clear` at the end of a run releases every block exactly if a key is stored.** -/
theorem released_iff (hr : Reached root h m) : Released h root ↔ ∃ k, m k ≠ none := by
  obtain ⟨T, O, rfl⟩ := hr.owns
  rw [exists_bound]
  cases T with
  | none => exact iff_of_false (not_released_empty O) fun hT => hT rfl
  | some t => exact iff_of_true (released_tree O) (by simp)

theorem released_two : ∃ (h : Heap) (m : Map), Reached 0 h m ∧ m ⟨[97], by decide⟩ = some 5 ∧
    (Released h 0 ↔ ∃ k, m k ≠ none) := by
  obtain ⟨h, hr⟩ := reached_two
  exact ⟨h, _, hr, by decide, released_iff hr⟩

/-- a new tree is not released -/
theorem not_released_new :
    ¬ ∀ (root : Addr) (h : Heap) (m : Map), Reached root h m → Released h root := by
  intro H
  have hnew := critbitNew_fresh 0
  exact not_released_empty (critbitNew_owns hnew) (H 0 _ _ (.new hnew))

end Critbit

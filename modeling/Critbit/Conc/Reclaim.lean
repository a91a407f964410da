import Critbit.Conc.Machine

/-!
# What a deletion frees

A deletion remembers the node that it has unlinked, not the leaf.  It finds the leaf again behind
`wlock`, by a comparison with `child[0]` of the node, and that child may be the sibling, a leaf of the
tree that another deletion may free meanwhile.

* `Pc.garbage`        the blocks that a thread has unlinked and not yet freed;
* `Pc.watched`        the leaf that a deletion has yet to compare its key with;
* `Inv`               the invariant of all interleavings, in which `Inv.update` changes one thread;
* `DeleteOk`, `CutOk`  what is asked of a deletion, state by state, and of its critical section;
* `reclaim_exact`     every deletion frees what it has unlinked, if no watched leaf is freed;
* `not_reclaim_exact` a schedule of two threads in which a deletion frees a leaf of the tree.
-/

namespace Critbit
open Crit CTree

variable {Tid : Type} {root : Addr} {h h' h₀ : Heap} {T T' : Option MTree}
  {k : Key} {v : Val} {s s' : State Tid} {t : Tid} {c : Cut}

/-! ## what a thread holds -/

/-- the blocks that it has unlinked and not yet freed -/
def Pc.garbage : Pc → List Addr
  | .delSwapCur _ c _ _ => c.blocks
  | .delSwapPrev _ c _ _ => c.blocks
  | .delWait _ c _ => c.blocks
  | .delUnlock _ c => c.blocks
  | .delRead _ c _ => c.blocks
  | .delCompare _ c _ _ => c.blocks
  | .delFree _ c _ _ => c.blocks
  | .delFreeNode _ _ a => [a]
  | _ => []

/-- it holds `wlock` -/
def Pc.writing : Pc → Bool
  | .insEnter _ _ => true
  | .insPublish _ _ => true
  | .insUnlock _ => true
  | .delEnter _ => true
  | .delSwapCur _ _ _ _ => true
  | .delSwapPrev _ _ _ _ => true
  | .delWait _ _ _ => true
  | .delUnlock _ _ => true
  | _ => false

/-- what a deletion has unlinked, until it has compared -/
def Pc.cut : Pc → Option Cut
  | .delSwapCur _ c _ _ => some c
  | .delSwapPrev _ c _ _ => some c
  | .delWait _ c _ => some c
  | .delUnlock _ c => some c
  | .delRead _ c _ => some c
  | .delCompare _ c _ _ => some c
  | _ => none

/-- `child[0]` of the unlinked node, if it is a leaf -/
def Cut.first (h : Heap) (c : Cut) : Option Addr :=
  match c.p with
  | .node a =>
    match h.node a with
    | .ok n =>
      match n.child false with
      | .str b => some b
      | _ => none
    | _ => none
  | _ => none

/-- the leaf that the comparison is going to read -/
def Pc.watched (h : Heap) (pc : Pc) : Option Addr := pc.cut.bind (Cut.first h)

theorem Cut.first_eq {a b : Addr} {n : Node} (hp : c.p = .node a) (hn : h.lookup a = some (.node n))
    (hc : n.child false = .str b) : c.first h = some b := by
  unfold Cut.first
  simp only [hp, Heap.node_ok hn, hc]

theorem mem_leaf_blocks (hp : c.p ≠ .null) : c.leaf ∈ c.blocks := by
  unfold Cut.blocks
  cases e : c.p with
  | null => exact absurd e hp
  | str a => exact List.mem_singleton_self _
  | node a => exact List.mem_cons_self

theorem mem_node_blocks {a : Addr} (hp : c.p = .node a) : a ∈ c.blocks := by
  unfold Cut.blocks
  rw [hp]
  exact List.mem_cons_of_mem _ (List.mem_singleton_self a)

/-! ## what it knows about them -/

/-- The unlinked blocks, and the leaf that is compared: no one has freed it since they were
unlinked. -/
inductive Intact (h : Heap) (frees : List Addr) (k : Key) (c : Cut) : Prop
  | null (hp : c.p = .null)
  | leaf {v : Val} (hp : c.p = .str c.leaf) (hl : h.lookup c.leaf = some (.str ⟨v, k.buf⟩))
  | node {v : Val} {a : Addr} {n : Node} {d : Bool} (hp : c.p = .node a)
      (hl : h.lookup c.leaf = some (.str ⟨v, k.buf⟩)) (hn : h.lookup a = some (.node n))
      (hc : n.child d = .str c.leaf) (hs : d = true → SiblingOk h k n)
      (hf : ∀ b, c.first h = some b → b ∉ frees.drop c.mark)

/-- what is known at each point -/
def Pc.Ok (h : Heap) (frees : List Addr) : Pc → Prop
  | .insEnter k _ => Short k
  | .delSwapCur k c _ _ => Intact h frees k c
  | .delSwapPrev k c _ _ => Intact h frees k c
  | .delWait k c _ => Intact h frees k c
  | .delUnlock k c => Intact h frees k c
  | .delRead k c a => c.p = .node a ∧ Intact h frees k c
  | .delCompare k c a n => c.p = .node a ∧ h.lookup a = some (.node n) ∧ Intact h frees k c
  | .delFree k c p w => p = .str c.leaf ∧ (∃ v, h.lookup c.leaf = some (.str ⟨v, k.buf⟩)) ∧
      (c.p = .str c.leaf ∧ w = none ∨ ∃ a n, c.p = .node a ∧ w = some a ∧ h.lookup a = some (.node n))
  | .delFreeNode _ c a => c.p = .node a ∧ ∃ n, h.lookup a = some (.node n)
  | _ => True

/-- It stays true as long as the unlinked blocks stay as they are and the leaf that is compared is not
freed. -/
theorem Intact.mono {frees l : List Addr} (I : Intact h frees k c)
    (hb : ∀ b ∈ c.blocks, h'.lookup b = h.lookup b)
    (hstr : ∀ b x, h.lookup b = some (.str x) → b ∉ l → h'.lookup b = some (.str x))
    (hl : ∀ b ∈ l, c.first h ≠ some b) : Intact h' (frees ++ l) k c := by
  cases I with
  | null hp => exact .null hp
  | leaf hp hleaf =>
    have hm : c.leaf ∈ c.blocks := mem_leaf_blocks (hp ▸ nofun)
    exact .leaf hp ((hb _ hm).trans hleaf)
  | @node v a n d hp hleaf hn hc hs hf =>
    have hm : c.leaf ∈ c.blocks := mem_leaf_blocks (hp ▸ nofun)
    have hn' := (hb a (mem_node_blocks hp)).trans hn
    have hfirst : c.first h' = c.first h := by
      unfold Cut.first
      simp only [hp, Heap.node_ok hn, Heap.node_ok hn']
    refine .node hp ((hb _ hm).trans hleaf) hn' hc (fun hd => ?_) fun b hb' => ?_
    · rcases hs hd with e | ⟨b, x, w, e, hlook, hne⟩
      · exact .inl e
      · exact .inr ⟨b, x, w, e, hstr b _ hlook fun hbl => hl b hbl (Cut.first_eq hp hn e), hne⟩
    · rw [hfirst] at hb'
      rw [List.drop_append, List.mem_append, not_or]
      exact ⟨hf b hb', fun h1 => hl b (List.mem_of_mem_drop h1) hb'⟩

theorem Pc.Ok.mono {frees l : List Addr} {pc : Pc} (I : pc.Ok h frees)
    (hb : ∀ b ∈ pc.garbage, h'.lookup b = h.lookup b)
    (hstr : ∀ b x, h.lookup b = some (.str x) → b ∉ l → h'.lookup b = some (.str x))
    (hl : ∀ b ∈ l, pc.watched h ≠ some b) : pc.Ok h' (frees ++ l) := by
  cases pc with
  | delSwapCur k c _ _ => exact Intact.mono I hb hstr hl
  | delSwapPrev k c _ _ => exact Intact.mono I hb hstr hl
  | delWait k c _ => exact Intact.mono I hb hstr hl
  | delUnlock k c => exact Intact.mono I hb hstr hl
  | delRead k c a => exact ⟨I.1, I.2.mono hb hstr hl⟩
  | delCompare k c a n =>
    exact ⟨I.1, (hb a (mem_node_blocks I.1)).trans I.2.1, I.2.2.mono hb hstr hl⟩
  | delFree k c p w =>
    obtain ⟨hp, ⟨v, hl⟩, ⟨ha, hw⟩ | ⟨a, n, ha, hw, hn⟩⟩ := I
    · have hm : c.leaf ∈ c.blocks := mem_leaf_blocks (ha ▸ nofun)
      exact ⟨hp, ⟨v, (hb _ hm).trans hl⟩, .inl ⟨ha, hw⟩⟩
    · have hm : c.leaf ∈ c.blocks := mem_leaf_blocks (ha ▸ nofun)
      exact ⟨hp, ⟨v, (hb _ hm).trans hl⟩, .inr ⟨a, n, ha, hw, (hb a (mem_node_blocks ha)).trans hn⟩⟩
  | delFreeNode k c a =>
    obtain ⟨hp, n, hn⟩ := I
    exact ⟨hp, n, (hb a (List.mem_singleton_self a)).trans hn⟩
  | _ => exact I

/-- the leaf that is compared is a leaf -/
theorem Intact.first_str {frees : List Addr} {b : Addr} (I : Intact h frees k c)
    (hb : c.first h = some b) : ∃ x, h.lookup b = some (.str x) := by
  cases I with
  | null hp => unfold Cut.first at hb; rw [hp] at hb; cases hb
  | leaf hp => unfold Cut.first at hb; rw [hp] at hb; cases hb
  | @node v a n d hp hl hn hc hs hf =>
    cases d with
    | false =>
      cases (Cut.first_eq hp hn hc).symm.trans hb
      exact ⟨_, hl⟩
    | true =>
      rcases hs rfl with ⟨b', e⟩ | ⟨b', x, w, e, hlook, -⟩
      · unfold Cut.first at hb
        simp only [hp, Heap.node_ok hn, e] at hb
        cases hb
      · cases (Cut.first_eq hp hn e).symm.trans hb
        exact ⟨_, hlook⟩

theorem Pc.Ok.watched_str {frees : List Addr} {pc : Pc} {b : Addr} (I : pc.Ok h frees)
    (hb : pc.watched h = some b) : ∃ x, h.lookup b = some (.str x) := by
  cases pc with
  | delSwapCur k c _ _ => exact Intact.first_str I hb
  | delSwapPrev k c _ _ => exact Intact.first_str I hb
  | delWait k c _ => exact Intact.first_str I hb
  | delUnlock k c => exact Intact.first_str I hb
  | delRead k c a => exact I.2.first_str hb
  | delCompare k c a n => exact I.2.2.first_str hb
  | _ => cases hb

/-! ## the invariant -/

/-- the blocks `new` are complete, and the store of `p` to `slot` publishes them -/
def Awaiting (root : Addr) (h : Heap) (T : Option MTree) (slot : Slot) (p : Ptr)
    (new : List Addr) : Prop :=
  ∃ h₀ k v T', Short k ∧ Holds h₀ root T ∧ Prepared h₀ root T k v h slot p T' new

/-- a heap without some of its blocks -/
theorem exists_without (h : Heap) (new : List Addr) :
    ∃ h₀ : Heap, (∀ b ∈ new, b ∉ h₀) ∧ ∀ b, b ∉ new → h₀.lookup b = h.lookup b := by
  induction new with
  | nil => exact ⟨h, fun b hb => absurd hb List.not_mem_nil, fun b _ => rfl⟩
  | cons a l ih =>
    obtain ⟨h₀, hno, hsame⟩ := ih
    refine ⟨h₀.erase a, fun b hb hm => ?_, fun b hb => ?_⟩
    · obtain ⟨hne, hm⟩ := Finmap.mem_erase.mp hm
      rcases List.mem_cons.mp hb with e | e
      · exact hne e
      · exact hno b e hm
    · obtain ⟨hne, hb⟩ := not_or.mp (mt List.mem_cons.mpr hb)
      rw [Finmap.lookup_erase_ne hne, hsame b hb]

/-- only the blocks of the tree and the new ones matter -/
theorem Prepared.reframe {slot : Slot} {p : Ptr} {new : List Addr} (H₀ : Holds h₀ root T)
    (P : Prepared h₀ root T k v h slot p T' new) (H : Holds h' root T)
    (hnew : ∀ b ∈ new, h'.lookup b = h.lookup b) :
    ∃ g, Holds g root T ∧ Prepared g root T k v h' slot p T' new := by
  have hold : ∀ b ∈ root :: annotsOf T, b ∉ new := fun b hb hb' => P.fresh b hb' (H₀.mem hb)
  obtain ⟨g, hno, hsame⟩ := exists_without h' new
  refine ⟨g, H.frame fun b hb => hsame b (hold b hb), P.inserted, hno, P.nodup,
    fun b hb => (hsame b hb).symm, ?_⟩
  rcases P.slot with ⟨hT, hs, b, hT', rfl, hp, hb⟩ | ⟨C, t, i, a, b, hT, hs, rfl, hp, hd, hT', hb, ha⟩
  · exact .inl ⟨hT, hs, b, hT', rfl, hp, (hnew b (by simp)).trans hb⟩
  · exact .inr ⟨C, t, i, a, b, hT, hs, rfl, hp, hd, hT', (hnew b (by simp)).trans hb,
      (hnew a (by simp)).trans ha⟩

theorem Awaiting.frame {slot : Slot} {p : Ptr} {new : List Addr} (A : Awaiting root h T slot p new)
    (H : Holds h' root T) (hnew : ∀ b ∈ new, h'.lookup b = h.lookup b) :
    Awaiting root h' T slot p new := by
  obtain ⟨h₀, k, v, T', hk, H₀, P⟩ := A
  obtain ⟨g, Hg, Pg⟩ := P.reframe H₀ H hnew
  exact ⟨g, k, v, T', hk, Hg, Pg⟩

/-- The tree in the heap is `T`; what the threads have unlinked is there still, outside of the tree,
and each block of it is one thread's. -/
structure Inv (root : Addr) (s : State Tid) (T : Option MTree) : Prop where
  holds : Holds s.heap root T
  owner : ∀ t, (s.pc t).writing → s.wlock = some t
  live : ∀ t, ∀ b ∈ (s.pc t).garbage, b ∈ s.heap ∧ b ∉ root :: annotsOf T
  nodup : ∀ t, (s.pc t).garbage.Nodup
  apart : ∀ t t' b, b ∈ (s.pc t).garbage → b ∈ (s.pc t').garbage → t = t'
  ok : ∀ t, (s.pc t).Ok s.heap s.frees
  pending : ∀ t ret slot p, s.pc t = .insPublish ret (some (slot, p)) →
    ∃ new, Awaiting root s.heap T slot p new ∧ ∀ t' b, b ∈ (s.pc t').garbage → b ∉ new

theorem Inv.alone (I : Inv root s T) (ht : (s.pc t).writing) {t' : Tid} (hne : t' ≠ t) :
    ¬ (s.pc t').writing := by
  intro ht'
  have e := (I.owner t ht).symm.trans (I.owner t' ht')
  exact hne (Option.some.inj e).symm

/-- What a step of `t` does to the others and to the tree. -/
structure Stepped (root : Addr) (s s' : State Tid) (t : Tid) (T T' : Option MTree) : Prop where
  inv : Inv root s' T'
  others : ∀ t', t' ≠ t → ∀ b ∈ (s.pc t').garbage, s'.heap.lookup b = s.heap.lookup b
  tree : ∀ b ∈ annotsOf T, b ∈ annotsOf T' ∨ b ∈ (s'.pc t).garbage

section
variable [DecidableEq Tid]

/-- **One thread moves to `pc`**, with the heap `h'` and the tree `T'`, and has freed `l`: what is left
of the invariant is about this thread, about the blocks of the others, and about an insertion. -/
theorem Inv.update (I : Inv root s T) {pc : Pc} {l : List Addr} (hs : s'.pc = Function.update s.pc t pc)
    (hfrees : s'.frees = s.frees ++ l) (H : Holds s'.heap root T')
    (hw : pc.writing → s'.wlock = some t)
    (hothers : ∀ t', t' ≠ t → (s.pc t').writing → s'.wlock = some t')
    (hlive : ∀ b ∈ pc.garbage, b ∈ s'.heap ∧ b ∉ root :: annotsOf T' ∧
      ∀ t', t' ≠ t → b ∉ (s.pc t').garbage)
    (hnd : pc.garbage.Nodup) (hok : pc.Ok s'.heap (s.frees ++ l))
    (hkeep : ∀ t', t' ≠ t → ∀ b ∈ (s.pc t').garbage,
      s'.heap.lookup b = s.heap.lookup b ∧ b ∉ root :: annotsOf T')
    (htree : ∀ b ∈ annotsOf T, b ∈ annotsOf T' ∨ b ∈ pc.garbage)
    (hstr : ∀ b x, s.heap.lookup b = some (.str x) → b ∉ l → s'.heap.lookup b = some (.str x))
    (hl : ∀ b ∈ l, ∀ t', t' ≠ t → (s.pc t').watched s.heap ≠ some b)
    (hme : ∀ ret slot p, pc = .insPublish ret (some (slot, p)) →
      ∃ new, Awaiting root s'.heap T' slot p new ∧ ∀ t', t' ≠ t → ∀ b ∈ (s.pc t').garbage, b ∉ new)
    (hpend : ∀ t', t' ≠ t → ∀ ret slot p, s.pc t' = .insPublish ret (some (slot, p)) →
      ∃ new, Awaiting root s'.heap T' slot p new ∧ (∀ b ∈ pc.garbage, b ∉ new) ∧
        ∀ t'', t'' ≠ t → ∀ b ∈ (s.pc t'').garbage, b ∉ new) :
    Stepped root s s' t T T' := by
  have self : s'.pc t = pc := by rw [hs, Function.update_self]
  have other : ∀ t', t' ≠ t → s'.pc t' = s.pc t' := fun t' hne => by
    rw [hs, Function.update_of_ne hne]
  refine ⟨⟨H, fun t' => ?_, fun t' => ?_, fun t' => ?_, fun t₁ t₂ b h₁ h₂ => ?_, fun t' => ?_,
    fun t' ret slot p e => ?_⟩, fun t' hne b hb => (hkeep t' hne b hb).1, by rw [self]; exact htree⟩
  · by_cases e : t' = t
    · subst e; rw [self]; exact hw
    · rw [other t' e]; exact hothers t' e
  · by_cases e : t' = t
    · subst e; rw [self]
      exact fun b hb => ⟨(hlive b hb).1, (hlive b hb).2.1⟩
    · rw [other t' e]
      intro b hb
      obtain ⟨hlook, hout⟩ := hkeep t' e b hb
      exact ⟨by rw [Finmap.mem_iff, hlook, ← Finmap.mem_iff (s := s.heap)]; exact (I.live t' b hb).1, hout⟩
  · by_cases e : t' = t
    · subst e; rw [self]; exact hnd
    · rw [other t' e]; exact I.nodup t'
  · by_cases e₁ : t₁ = t
    · by_cases e₂ : t₂ = t
      · exact e₁.trans e₂.symm
      · rw [e₁, self] at h₁
        rw [other t₂ e₂] at h₂
        exact absurd h₂ ((hlive b h₁).2.2 t₂ e₂)
    · rw [other t₁ e₁] at h₁
      by_cases e₂ : t₂ = t
      · rw [e₂, self] at h₂
        exact absurd h₁ ((hlive b h₂).2.2 t₁ e₁)
      · rw [other t₂ e₂] at h₂
        exact I.apart t₁ t₂ b h₁ h₂
  · rw [hfrees]
    by_cases e : t' = t
    · subst e; rw [self]; exact hok
    · rw [other t' e]
      exact (I.ok t').mono (fun b hb => (hkeep t' e b hb).1) hstr fun b hb => hl b hb t' e
  · by_cases e' : t' = t
    · subst e'
      rw [self] at e
      obtain ⟨new, A, hnew⟩ := hme ret slot p e
      refine ⟨new, A, fun t'' b hb => ?_⟩
      by_cases e'' : t'' = t'
      · rw [e'', self, e] at hb
        exact absurd hb List.not_mem_nil
      · rw [other t'' e''] at hb
        exact hnew t'' e'' b hb
    · rw [other t' e'] at e
      obtain ⟨new, A, hnew, hold⟩ := hpend t' e' ret slot p e
      refine ⟨new, A, fun t'' b hb => ?_⟩
      by_cases e'' : t'' = t
      · rw [e'', self] at hb
        exact hnew b hb
      · rw [other t'' e''] at hb
        exact hold t'' e'' b hb

/-- a step that leaves the heap alone -/
theorem Inv.quiet (I : Inv root s T) {pc : Pc} (hs : s'.pc = Function.update s.pc t pc)
    (hheap : s'.heap = s.heap) (hfrees : s'.frees = s.frees)
    (hw : pc.writing → s'.wlock = some t)
    (hothers : ∀ t', t' ≠ t → (s.pc t').writing → s'.wlock = some t')
    (hg : pc.garbage.Sublist (s.pc t).garbage) (hok : pc.Ok s.heap s.frees)
    (hno : ∀ ret w, pc ≠ .insPublish ret (some w)) : Stepped root s s' t T T := by
  refine I.update (l := []) hs (hfrees.trans (List.append_nil _).symm) (hheap ▸ I.holds) hw hothers
    (fun b hb => ?_) (hg.nodup (I.nodup t)) ?_ (fun t' _ b hb => ⟨by rw [hheap], (I.live t' b hb).2⟩)
    (fun b hb => .inl hb) (fun b x hb _ => by rw [hheap]; exact hb) (fun b hb => absurd hb List.not_mem_nil)
    (fun ret slot p e => absurd e (hno ret _)) (fun t' _ ret slot p e => ?_)
  · have hb' := hg.subset hb
    refine ⟨hheap ▸ (I.live t b hb').1, (I.live t b hb').2, fun t' hne h' => ?_⟩
    exact hne (I.apart t' t b h' hb')
  · rw [hheap, List.append_nil]
    exact hok
  · obtain ⟨new, A, hnew⟩ := I.pending t' ret slot p e
    exact ⟨new, hheap ▸ A, fun b hb => hnew t b (hg.subset hb), fun t'' _ b hb => hnew t'' b hb⟩

/-- a step of the thread that holds `wlock` -/
theorem Inv.write (I : Inv root s T) (hw : (s.pc t).writing) {pc : Pc}
    (hs : s'.pc = Function.update s.pc t pc) (hwl : s'.wlock = s.wlock) (hfrees : s'.frees = s.frees)
    (H : Holds s'.heap root T')
    (hlive : ∀ b ∈ pc.garbage, b ∈ s'.heap ∧ b ∉ root :: annotsOf T' ∧
      ∀ t', t' ≠ t → b ∉ (s.pc t').garbage)
    (hnd : pc.garbage.Nodup) (hok : pc.Ok s'.heap s.frees)
    (hkeep : ∀ t', t' ≠ t → ∀ b ∈ (s.pc t').garbage,
      s'.heap.lookup b = s.heap.lookup b ∧ b ∉ root :: annotsOf T')
    (htree : ∀ b ∈ annotsOf T, b ∈ annotsOf T' ∨ b ∈ pc.garbage)
    (hstr : ∀ b x, s.heap.lookup b = some (.str x) → s'.heap.lookup b = some (.str x))
    (hme : ∀ ret slot p, pc = .insPublish ret (some (slot, p)) →
      ∃ new, Awaiting root s'.heap T' slot p new ∧ ∀ t', t' ≠ t → ∀ b ∈ (s.pc t').garbage, b ∉ new) :
    Stepped root s s' t T T' := by
  refine I.update (l := []) hs (hfrees.trans (List.append_nil _).symm) H
    (fun _ => hwl.trans (I.owner t hw)) (fun t' hne hw' => absurd hw' (I.alone hw hne)) hlive hnd
    (by rw [List.append_nil]; exact hok) hkeep htree (fun b x hb _ => hstr b x hb)
    (fun b hb => absurd hb List.not_mem_nil) hme (fun t' hne ret slot p e => ?_)
  exact absurd (by rw [e]; rfl) (I.alone hw hne)

/-- the thread frees one of its blocks, which no other deletion is going to compare -/
theorem Inv.free (I : Inv root s T) {pc : Pc} {b : Addr} (hb : b ∈ (s.pc t).garbage)
    (hs : s'.pc = Function.update s.pc t pc) (hheap : s'.heap = s.heap.erase b)
    (hfrees : s'.frees = s.frees ++ [b]) (hwl : s'.wlock = s.wlock) (hw : ¬ pc.writing)
    (hg : pc.garbage.Sublist ((s.pc t).garbage.erase b))
    (hok : ∀ h, (∀ a ∈ pc.garbage, h.lookup a = s.heap.lookup a) → pc.Ok h (s.frees ++ [b]))
    (hl : ∀ t', t' ≠ t → (s.pc t').watched s.heap ≠ some b) : Stepped root s s' t T T := by
  have hsame : ∀ a, a ≠ b → s'.heap.lookup a = s.heap.lookup a := fun a ha => by
    rw [hheap, Finmap.lookup_erase_ne ha]
  have hout := (I.live t b hb).2
  have H : Holds s'.heap root T := I.holds.frame fun a ha => hsame a fun e => hout (e ▸ ha)
  have hmem : ∀ a ∈ pc.garbage, a ≠ b ∧ a ∈ (s.pc t).garbage := fun a ha =>
    (I.nodup t).mem_erase_iff.mp (hg.subset ha)
  have hnot : ∀ t', t' ≠ t → b ∉ (s.pc t').garbage := fun t' hne h' => hne (I.apart t' t b h' hb)
  refine I.update hs hfrees H (fun h' => absurd h' hw)
    (fun t' _ h' => hwl.trans (I.owner t' h')) (fun a ha => ?_)
    (hg.nodup ((I.nodup t).erase b)) (hok _ fun a ha => hsame a (hmem a ha).1) (fun t' hne a ha => ?_) (fun a ha => .inl ha)
    (fun a x ha hno => ?_)
    (fun a ha t' hne => ?_) (fun ret slot p e => ?_) (fun t' hne ret slot p e => ?_)
  · obtain ⟨hne, ha'⟩ := hmem a ha
    refine ⟨?_, (I.live t a ha').2, fun t' hne' h' => hne' (I.apart t' t a h' ha')⟩
    rw [Finmap.mem_iff, hsame a hne, ← Finmap.mem_iff (s := s.heap)]
    exact (I.live t a ha').1
  · exact ⟨hsame a fun e => hnot t' hne (e ▸ ha), (I.live t' a ha).2⟩
  · exact (hsame a fun e => hno (e ▸ List.mem_singleton_self b)).trans ha
  · exact List.mem_singleton.mp ha ▸ hl t' hne
  · exact absurd (by rw [e]; rfl) hw
  · obtain ⟨new, A, hnew⟩ := I.pending t' ret slot p e
    refine ⟨new, A.frame H fun a ha => hsame a fun e' => hnew t b hb (e' ▸ ha), fun a ha => ?_,
      fun t'' _ a ha => hnew t'' a ha⟩
    exact hnew t a (hmem a ha).2

end

/-! ## the steps under `wlock` -/

theorem casCur_ok {old new : RwLock} (H : Holds h root T) (e : casCur h root old new = .ok h') :
    ∃ x, h.lookup root = some (.root x) ∧
      h'.lookup root = some (.root { x with cur := if x.cur = old then new else x.cur }) ∧
      (∀ b, b ≠ root → h'.lookup b = h.lookup b) ∧ Holds h' root T := by
  obtain ⟨x, hx, -⟩ := H.record
  unfold casCur at e
  rw [Heap.root_ok hx, ok_bind] at e
  by_cases hc : x.cur = old
  · rw [if_pos hc, pure_ok, Except.ok.injEq] at e
    subst e
    exact ⟨x, hx, by rw [if_pos hc]; exact Finmap.lookup_insert _, H.relock hx rfl⟩
  · rw [if_neg hc, pure_ok, Except.ok.injEq] at e
    subst e
    exact ⟨x, hx, by rw [if_neg hc]; exact hx, fun _ _ => rfl, H⟩

theorem casPrev_ok {old new : RwLock} (H : Holds h root T) (e : casPrev h root old new = .ok h') :
    ∃ x, h.lookup root = some (.root x) ∧
      h'.lookup root = some (.root { x with prev := if x.prev = old then new else x.prev }) ∧
      (∀ b, b ≠ root → h'.lookup b = h.lookup b) ∧ Holds h' root T := by
  obtain ⟨x, hx, -⟩ := H.record
  unfold casPrev at e
  rw [Heap.root_ok hx, ok_bind] at e
  by_cases hc : x.prev = old
  · rw [if_pos hc, pure_ok, Except.ok.injEq] at e
    subst e
    exact ⟨x, hx, by rw [if_pos hc]; exact Finmap.lookup_insert _, H.relock hx rfl⟩
  · rw [if_neg hc, pure_ok, Except.ok.injEq] at e
    subst e
    exact ⟨x, hx, by rw [if_neg hc]; exact hx, fun _ _ => rfl, H⟩

/-- the note of the leaf is right -/
theorem nearestLeaf_eq {u : MTree} {a : Addr} (H : Holds h root (some u)) (ha : (a, k, v) ∈ u.leaves) :
    nearestLeaf h root k = a := by
  obtain ⟨x, hx, hp⟩ := H.record
  have hk : Short k := (H.good u rfl).short k (mem_keys_of_leaf ha)
  unfold nearestLeaf
  rw [Heap.load_head hx, ok_bind, hp, show ptrOf (some u) = ptr u from rfl, findNearest_rep H,
    hk.seen]
  show (u.nearest Key.bit k).1 = a
  rw [nearest_of_leaf (H.good u rfl).wf ha]

section
variable {p : Ptr} {old : List Addr}

theorem Unlinked.cut_leaf (U : Unlinked h root T k p h' T' old) (H : Holds h root T) (m : Nat) :
    (⟨p, nearestLeaf h root k, m⟩ : Cut).blocks = old := by
  obtain ⟨a, v, -, ⟨u, rfl, hu⟩, ⟨rfl, rfl⟩ | ⟨b, n, d, rfl, rfl, -⟩⟩ := U.blocks H
  · rw [nearestLeaf_eq H hu]; rfl
  · rw [nearestLeaf_eq H hu]; rfl

theorem Unlinked.intact (U : Unlinked h root T k p h' T' old) (H : Holds h root T)
    (frees : List Addr) : Intact h' frees k ⟨p, nearestLeaf h root k, frees.length⟩ := by
  obtain ⟨a, v, ha, ⟨u, rfl, hu⟩, ⟨rfl, rfl⟩ | ⟨b, n, d, rfl, rfl, hb, hc, hs⟩⟩ := U.blocks H
  · rw [nearestLeaf_eq H hu]
    exact .leaf rfl ha
  · rw [nearestLeaf_eq H hu]
    refine .node rfl ha hb hc hs fun e _ => ?_
    rw [List.drop_length]
    exact List.not_mem_nil

end

/-! ## every step -/

/-- the leaf that is freed next -/
def Pc.freeing : Pc → Option Addr
  | .delFree _ _ p _ => p.block
  | _ => none

/-- the thread is not about to free a leaf that another deletion is going to compare -/
def Unwatched (s : State Tid) (t : Tid) : Prop :=
  ∀ b ∈ (s.pc t).freeing, ∀ t', t' ≠ t → (s.pc t').watched s.heap ≠ some b

/-- the keys that are inserted are short -/
def ShortKeys : Act → Prop
  | .insert k _ => Short k
  | _ => True

def Guarded (s : State Tid) (t : Tid) (act : Act) : Prop := Unwatched s t ∧ ShortKeys act

instance : DecidablePred ShortKeys
  | .insert k _ => inferInstanceAs (Decidable (Short k))
  | .get _ _ => isTrue trivial
  | .delete _ => isTrue trivial
  | .go _ _ => isTrue trivial

section
variable [DecidableEq Tid]

instance [Fintype Tid] (s : State Tid) (t : Tid) : Decidable (Unwatched s t) :=
  inferInstanceAs (Decidable (∀ b ∈ (s.pc t).freeing, ∀ t', t' ≠ t → _ ≠ some b))

instance [Fintype Tid] (s : State Tid) (t : Tid) (act : Act) : Decidable (Guarded s t act) :=
  inferInstanceAs (Decidable (_ ∧ _))

/-- the thread takes `wlock` -/
theorem Inv.lock (I : Inv root s T) {pc : Pc} (hw : s.wlock = none) (hg : pc.garbage = [])
    (hok : pc.Ok s.heap s.frees) (hno : ∀ ret w, pc ≠ .insPublish ret w) :
    Stepped root s (({ s with wlock := some t } : State Tid).goto t pc) t T T := by
  refine I.quiet rfl rfl rfl (fun _ => rfl) (fun t' _ h' => ?_) (hg ▸ List.nil_sublist _) hok
    fun ret w => hno ret _
  cases hw.symm.trans (I.owner t' h')

/-- the thread gives `wlock` back -/
theorem Inv.unlock (I : Inv root s T) {pc : Pc} (hw : (s.pc t).writing) (hw' : ¬ pc.writing)
    (hg : pc.garbage.Sublist (s.pc t).garbage) (hok : pc.Ok s.heap s.frees) :
    Stepped root s (({ s with wlock := none } : State Tid).goto t pc) t T T := by
  refine I.quiet rfl rfl rfl (fun h' => absurd h' hw') (fun t' hne h' => absurd h' (I.alone hw hne))
    hg hok fun ret w e => hw' ?_
  rw [e]; rfl

/-- an insertion prepares its blocks -/
theorem Inv.prepare (I : Inv root s T) (hpc : s.pc t = .insEnter k v) {m n : Option Addr} {ret : Int}
    {h : Heap} {w : Option (Slot × Ptr)}
    (e : insertPrepare s.heap root k.buf (int32 (strlen k)) v m n = .ok (ret, h, w)) :
    Stepped root s (({ s with heap := h } : State Tid).goto t (.insPublish ret w)) t T T := by
  have hw : (s.pc t).writing := by rw [hpc]; rfl
  have hk : Short k := by
    have h1 := I.ok t
    rwa [hpc] at h1
  rcases insertPrepare_spec I.holds hk v m n with ⟨e', -⟩ | ⟨h₁, slot, p, T', new, e', P, -⟩
  · obtain ⟨rfl, e₂⟩ := Prod.mk.inj (Except.ok.inj (e.symm.trans e'))
    obtain ⟨rfl, rfl⟩ := Prod.mk.inj e₂
    exact I.write hw rfl rfl rfl I.holds (fun b hb => absurd hb List.not_mem_nil) List.nodup_nil
      trivial (fun t' _ b hb => ⟨rfl, (I.live t' b hb).2⟩) (fun b hb => .inl hb) (fun b x hb => hb)
      nofun
  · obtain ⟨rfl, e₂⟩ := Prod.mk.inj (Except.ok.inj (e.symm.trans e'))
    obtain ⟨rfl, rfl⟩ := Prod.mk.inj e₂
    have hold : ∀ b ∈ s.heap, h.lookup b = s.heap.lookup b := fun b hb =>
      P.frame b fun h1 => P.fresh b h1 hb
    have H : Holds h root T := I.holds.frame fun b hb => P.old I.holds hb
    refine I.write hw rfl rfl rfl H (fun b hb => absurd hb List.not_mem_nil) List.nodup_nil trivial
      (fun t' _ b hb => ⟨hold b (I.live t' b hb).1, (I.live t' b hb).2⟩) (fun b hb => .inl hb)
      (fun b x hb => (hold b (Heap.mem_of_lookup hb)).trans hb) fun ret' slot' p' e'' => ?_
    cases e''
    refine ⟨new, ⟨s.heap, k, v, T', hk, I.holds, P⟩, fun t' _ b hb hb' => ?_⟩
    exact P.fresh b hb' (I.live t' b hb).1

/-- an insertion makes its store -/
theorem Inv.publish (I : Inv root s T) {ret ret' : Int} {w : Option (Slot × Ptr)}
    (hpc : s.pc t = .insPublish ret w) {h : Heap}
    (e : Critbit.publish (ret, s.heap, w) = .ok (ret', h)) :
    ∃ T', Stepped root s (({ s with heap := h } : State Tid).goto t (.insUnlock ret')) t T T' := by
  have hw : (s.pc t).writing := by rw [hpc]; rfl
  cases w with
  | none =>
    cases e
    exact ⟨T, I.write hw rfl rfl rfl I.holds (fun b hb => absurd hb List.not_mem_nil) List.nodup_nil
      trivial (fun t' _ b hb => ⟨rfl, (I.live t' b hb).2⟩) (fun b hb => .inl hb) (fun b x hb => hb)
      nofun⟩
  | some w =>
    obtain ⟨slot, p⟩ := w
    obtain ⟨new, ⟨h₀, k, v, T', hk, H, P⟩, hnew⟩ := I.pending t ret slot p hpc
    obtain ⟨h', hst, H'⟩ := P.publish H hk
    have e' : Critbit.publish (ret, s.heap, some (slot, p)) = .ok (ret, h') := by
      show (s.heap.store slot p >>= fun h => pure (ret, h)) = _
      rw [hst]
      rfl
    obtain ⟨-, rfl⟩ := Prod.mk.inj (Except.ok.inj (e.symm.trans e'))
    refine ⟨T', I.write hw rfl rfl rfl H' (fun b hb => absurd hb List.not_mem_nil) List.nodup_nil
      trivial (fun t' _ b hb => ?_) (fun b hb => .inl ?_) (fun b x hb => Heap.store_str hst hb) nofun⟩
    swap
    · exact P.inserted.annots.mem_iff.mpr (List.mem_append_right _ hb)
    have hout := (I.live t' b hb).2
    refine ⟨Heap.store_frame hst fun e1 => hout (e1 ▸ P.addr), fun h1 => ?_⟩
    rcases List.mem_cons.mp h1 with rfl | h2
    · exact hout List.mem_cons_self
    · rcases List.mem_append.mp (P.inserted.annots.mem_iff.mp h2) with h3 | h3
      · exact hnew t' b hb h3
      · exact hout (List.mem_cons_of_mem _ h3)

/-- the critical section of a deletion -/
theorem Inv.unlink (I : Inv root s T) (hpc : s.pc t = .delEnter k) {p : Ptr} {h : Heap}
    (e : critbitDeleteInplace s.heap root k.buf (int32 (strlen k)) = .ok (p, h)) (l l' : RwLock) :
    ∃ T', Stepped root s (({ s with heap := h } : State Tid).goto t
      (.delSwapCur k ⟨p, nearestLeaf s.heap root k, s.frees.length⟩ l l')) t T T' := by
  have hw : (s.pc t).writing := by rw [hpc]; rfl
  rcases deleteInplace_spec I.holds k with ⟨-, e'⟩ | ⟨p', h', T', old, e', U⟩
  · obtain ⟨rfl, rfl⟩ := Prod.mk.inj (Except.ok.inj (e.symm.trans e'))
    exact ⟨T, I.write hw rfl rfl rfl I.holds (fun b hb => absurd hb List.not_mem_nil) List.nodup_nil
      (.null rfl) (fun t' _ b hb => ⟨rfl, (I.live t' b hb).2⟩) (fun b hb => .inl hb)
      (fun b x hb => hb) nofun⟩
  · obtain ⟨rfl, rfl⟩ := Prod.mk.inj (Except.ok.inj (e.symm.trans e'))
    have hblocks := U.cut_leaf I.holds s.frees.length
    have hnd := U.nodup I.holds
    have hold : ∀ b ∈ old, b ∈ annotsOf T := fun b hb =>
      U.deleted.annots.mem_iff.mpr (List.mem_append_left _ hb)
    have hsub : ∀ b ∈ root :: annotsOf T', b ∈ root :: annotsOf T := by
      intro b hb
      rcases List.mem_cons.mp hb with rfl | hb
      · exact List.mem_cons_self
      · exact List.mem_cons_of_mem _ (U.deleted.annots.mem_iff.mpr (List.mem_append_right _ hb))
    obtain ⟨slot, q, hst, -⟩ := U.store
    refine ⟨T', I.write hw rfl rfl rfl U.holds (fun b hb => ?_) ?_ (U.intact I.holds _)
      (fun t' _ b hb => ?_) (fun b hb => ?_) (fun b x hb => Heap.store_str hst hb) nofun⟩
    · have hb' : b ∈ old := hblocks ▸ hb
      refine ⟨U.mem_iff.mpr (I.holds.mem (List.mem_cons_of_mem _ (hold b hb'))),
        fun h1 => List.disjoint_of_nodup_append hnd hb' h1, fun t' _ h1 => ?_⟩
      exact (I.live t' b h1).2 (List.mem_cons_of_mem _ (hold b hb'))
    · show (Cut.blocks _).Nodup
      rw [hblocks]
      exact (List.nodup_append'.mp hnd).1
    · have hout := (I.live t' b hb).2
      exact ⟨U.frame fun h1 => hout (hsub b h1), fun h1 => hout (hsub b h1)⟩
    · refine (List.mem_append.mp (U.deleted.annots.mem_iff.mp hb)).symm.imp id fun h1 => ?_
      show b ∈ Cut.blocks _
      rwa [hblocks]

/-- a deletion exchanges the locks -/
theorem Inv.swap (I : Inv root s T) {pc : Pc} (hw : (s.pc t).writing)
    (hg : pc.garbage = (s.pc t).garbage) (hok : ∀ h l, (s.pc t).Ok h l → pc.Ok h l)
    (hno : ∀ ret w, pc ≠ .insPublish ret w)
    (H : Holds h root T) (hf : ∀ b, b ≠ root → h.lookup b = s.heap.lookup b) :
    Stepped root s (({ s with heap := h } : State Tid).goto t pc) t T T := by
  have hne : ∀ t' b, b ∈ (s.pc t').garbage → b ≠ root := fun t' b hb e =>
    (I.live t' b hb).2 (e ▸ List.mem_cons_self)
  have hstr : ∀ b x, s.heap.lookup b = some (.str x) → h.lookup b = some (.str x) := by
    intro b x hb
    obtain ⟨x', hx', -⟩ := I.holds.record
    exact (hf b fun e => by subst e; cases hb.symm.trans hx').trans hb
  have hown := (I.ok t).mono (l := []) (fun b hb => hf b (hne t b hb)) (fun b x hb _ => hstr b x hb)
    fun b hb => absurd hb List.not_mem_nil
  rw [List.append_nil] at hown
  refine I.write hw rfl rfl rfl H (fun b hb => ?_) (hg ▸ I.nodup t) (hok _ _ hown)
    (fun t' _ b hb => ⟨hf b (hne t' b hb), (I.live t' b hb).2⟩)
    (fun b hb => .inl hb) hstr
    fun ret slot p e => absurd e (hno ret _)
  rw [hg] at hb
  refine ⟨?_, (I.live t b hb).2, fun t' h1 h2 => h1 (I.apart t' t b h2 hb)⟩
  show b ∈ h
  rw [Finmap.mem_iff, hf b (hne t b hb), ← Finmap.mem_iff (s := s.heap)]
  exact (I.live t b hb).1

theorem Inv.afterUnlock (I : Inv root s T) (hpc : s.pc t = .delUnlock k c) :
    Stepped root s (({ s with wlock := none } : State Tid).goto t (afterUnlock k c)) t T T := by
  have hw : (s.pc t).writing := by rw [hpc]; rfl
  have hok : Intact s.heap s.frees k c := by
    have h1 := I.ok t
    rwa [hpc] at h1
  have hg : (s.pc t).garbage = c.blocks := by rw [hpc]; rfl
  unfold Critbit.afterUnlock
  cases hp : c.p with
  | null => exact I.unlock hw nofun (List.nil_sublist _) trivial
  | str a =>
    refine I.unlock hw nofun (hg ▸ List.Sublist.refl _) ?_
    cases hok with
    | null hp' => cases hp'.symm.trans hp
    | leaf hp' hl => exact ⟨hp.symm.trans hp', ⟨_, hl⟩, .inl ⟨hp', rfl⟩⟩
    | node hp' => cases hp'.symm.trans hp
  | node a => exact I.unlock hw nofun (hg ▸ List.Sublist.refl _) ⟨hp, hok⟩

/-- **The comparison picks the leaf of the key.** -/
theorem Intact.victim {a : Addr} {x : Node} {frees : List Addr} (I : Intact h frees k c)
    (hp : c.p = .node a) (hx : h.lookup a = some (.node x)) :
    Critbit.victim h k.buf x = .ok (.str c.leaf) ∧
      ∃ v, h.lookup c.leaf = some (.str ⟨v, k.buf⟩) := by
  cases I with
  | null hp' => cases hp'.symm.trans hp
  | leaf hp' => cases hp'.symm.trans hp
  | node hp' hl hn hc hs hf =>
    cases hp'.symm.trans hp
    cases hn.symm.trans hx
    exact ⟨victim_leaf hc hl hs, _, hl⟩

theorem Inv.compare (I : Inv root s T) {a : Addr} {x : Node} {p : Ptr}
    (hpc : s.pc t = .delCompare k c a x) (e : victim s.heap k.buf x = .ok p) :
    Stepped root s (s.goto t (.delFree k c p (some a))) t T T := by
  obtain ⟨hp, hx, hok⟩ : (Pc.delCompare k c a x).Ok s.heap s.frees := hpc ▸ I.ok t
  obtain ⟨hv, hl⟩ := hok.victim hp hx
  rw [e, Except.ok.injEq] at hv
  refine I.quiet rfl rfl rfl nofun (fun t' _ => I.owner t') ?_ ⟨hv, hl, .inr ⟨a, x, hp, rfl, hx⟩⟩ nofun
  rw [hpc]
  exact .refl _

theorem Inv.freeLeaf (I : Inv root s T) {p : Ptr} {w : Option Addr} {h : Heap}
    (hpc : s.pc t = .delFree k c p w) (hu : Unwatched s t) (e : freeString s.heap p = .ok h) :
    Stepped root s (({ s with heap := h, frees := s.frees ++ p.block.toList } : State Tid).goto t
      (afterFree k c w)) t T T := by
  obtain ⟨rfl, -, hcase⟩ : (Pc.delFree k c p w).Ok s.heap s.frees := hpc ▸ I.ok t
  have hnull : c.p ≠ .null := by
    rintro e'
    rcases hcase with ⟨e1, -⟩ | ⟨a, n, e1, -⟩ <;> cases e'.symm.trans e1
  have hb : c.leaf ∈ (s.pc t).garbage := by
    rw [hpc]
    exact mem_leaf_blocks hnull
  have hfree : freeString s.heap (.str c.leaf) = .ok (s.heap.erase c.leaf) :=
    Heap.free_ok (I.live t _ hb).1
  rw [e, Except.ok.injEq] at hfree
  have hl : ∀ t', t' ≠ t → (s.pc t').watched s.heap ≠ some c.leaf := hu _ (by rw [hpc]; rfl)
  rcases hcase with ⟨-, rfl⟩ | ⟨a, n, hp, rfl, hn⟩
  · exact I.free hb rfl hfree rfl rfl nofun (List.nil_sublist _) (fun _ _ => trivial) hl
  · refine I.free hb rfl hfree rfl rfl nofun ?_
      (fun g hg => ⟨hp, n, (hg a (List.mem_singleton_self a)).trans hn⟩) hl
    rw [hpc]
    show [a].Sublist (c.blocks.erase c.leaf)
    rw [show c.blocks = [c.leaf, a] by unfold Cut.blocks; rw [hp], List.erase_cons_head]

theorem Inv.freeNode (I : Inv root s T) {a : Addr} {h : Heap} (hpc : s.pc t = .delFreeNode k c a)
    (e : s.heap.free a = .ok h) :
    Stepped root s (({ s with heap := h, frees := s.frees ++ [a] } : State Tid).goto t .idle) t T T := by
  have hb : a ∈ (s.pc t).garbage := by
    rw [hpc]
    exact List.mem_singleton_self a
  have hfree := Heap.free_ok (I.live t a hb).1
  rw [e, Except.ok.injEq] at hfree
  obtain ⟨-, n, hn⟩ : (Pc.delFreeNode k c a).Ok s.heap s.frees := hpc ▸ I.ok t
  refine I.free hb rfl hfree rfl rfl nofun (List.nil_sublist _) (fun _ _ => trivial) fun t' _ hw => ?_
  -- what is compared is a leaf
  obtain ⟨x, hx⟩ := (I.ok t').watched_str hw
  cases hx.symm.trans hn

/-- **One step.** -/
theorem Inv.step (I : Inv root s T) {act : Act} (hg : Guarded s t act)
    (hs : Critbit.step root s t act = some s') : ∃ T', Stepped root s s' t T T' := by
  cases step_trans hs with
  | getCur hpc hr =>
    exact ⟨T, I.quiet rfl rfl rfl nofun (fun t' _ => I.owner t') (List.nil_sublist _) trivial nofun⟩
  | rdlock hpc =>
    exact ⟨T, I.quiet rfl rfl rfl nofun (fun t' _ => I.owner t') (List.nil_sublist _) trivial nofun⟩
  | head hpc hp =>
    exact ⟨T, I.quiet rfl rfl rfl nofun (fun t' _ => I.owner t') (List.nil_sublist _) trivial nofun⟩
  | child hpc hn hd =>
    exact ⟨T, I.quiet rfl rfl rfl nofun (fun t' _ => I.owner t') (List.nil_sublist _) trivial nofun⟩
  | answer hpc hr =>
    exact ⟨T, I.quiet rfl rfl rfl nofun (fun t' _ => I.owner t') (List.nil_sublist _) trivial nofun⟩
  | rdunlock hpc =>
    exact ⟨T, I.quiet rfl rfl rfl nofun (fun t' _ => I.owner t') (List.nil_sublist _) trivial nofun⟩
  | insLock hpc hw => exact ⟨T, I.lock hw rfl hg.2 nofun⟩
  | prepare hpc e => exact ⟨T, I.prepare hpc e⟩
  | publish hpc e => exact I.publish hpc e
  | insUnlock hpc => exact ⟨T, I.unlock (by rw [hpc]; rfl) nofun (List.nil_sublist _) trivial⟩
  | delLock hpc hw => exact ⟨T, I.lock hw rfl trivial nofun⟩
  | unlink hpc e hr => exact I.unlink hpc e _ _
  | swapCur hpc e =>
    obtain ⟨x, -, -, hf, H⟩ := casCur_ok I.holds e
    exact ⟨T, I.swap (by rw [hpc]; rfl) (by rw [hpc]; rfl) (fun _ _ h1 => by rwa [hpc] at h1) nofun
      H hf⟩
  | swapPrev hpc e =>
    obtain ⟨x, -, -, hf, H⟩ := casPrev_ok I.holds e
    exact ⟨T, I.swap (by rw [hpc]; rfl) (by rw [hpc]; rfl) (fun _ _ h1 => by rwa [hpc] at h1) nofun
      H hf⟩
  | wait hpc hl =>
    have hok : Pc.Ok _ _ _ := hpc ▸ I.ok t
    exact ⟨T, I.quiet rfl rfl rfl (fun _ => I.owner t (by rw [hpc]; rfl)) (fun t' _ => I.owner t')
      (by rw [hpc]; exact .refl _) hok nofun⟩
  | delUnlock hpc => exact ⟨T, I.afterUnlock hpc⟩
  | @read k c a x _ _ hpc hn =>
    obtain ⟨hp, hok⟩ : (Pc.delRead k c a).Ok s.heap s.frees := hpc ▸ I.ok t
    exact ⟨T, I.quiet rfl rfl rfl nofun (fun t' _ => I.owner t') (by rw [hpc]; exact .refl _)
      ⟨hp, Heap.node_inv hn, hok⟩ nofun⟩
  | compare hpc e => exact ⟨T, I.compare hpc e⟩
  | freeLeaf hpc e => exact ⟨T, I.freeLeaf hpc hg.1 e⟩
  | freeNode hpc e => exact ⟨T, I.freeNode hpc e⟩

/-! ## every run -/

omit [DecidableEq Tid] in
theorem inv_start (root : Addr) : Inv root (start root : State Tid) none :=
  ⟨(critbitNew_owns (critbitNew_fresh root)).toHolds, fun _ => nofun,
    fun _ _ hb => absurd hb List.not_mem_nil, fun _ => List.nodup_nil,
    fun _ _ _ hb => absurd hb List.not_mem_nil, fun _ => trivial, fun _ _ _ _ => nofun⟩

theorem Inv.run (I : Inv root s T) (hr : Run root Guarded s s') : ∃ T', Inv root s' T' := by
  induction hr with
  | refl => exact ⟨T, I⟩
  | tail _ hs ih =>
    obtain ⟨T₁, I₁⟩ := ih
    obtain ⟨t, act, hg, hs⟩ := hs
    obtain ⟨T₂, S⟩ := I₁.step hg hs
    exact ⟨T₂, S.inv⟩

end

/-! ## deletions -/

/-- the block is reached from `head` -/
def Linked (root : Addr) (h : Heap) (b : Addr) : Prop :=
  ∃ r q, h.root root = .ok r ∧ Below h r.head q ∧ q.block = some b

theorem linked_iff (H : Holds h root T) {b : Addr} : Linked root h b ↔ b ∈ annotsOf T := by
  obtain ⟨x, hx, hp⟩ := H.record
  have hl : Linked root h b ↔ ∃ q, Below h (ptrOf T) q ∧ q.block = some b := by
    constructor
    · rintro ⟨r, q, hr, hq, hb⟩
      rw [Heap.root_ok hx, Except.ok.injEq] at hr
      exact ⟨q, by rw [← hp, hr]; exact hq, hb⟩
    · rintro ⟨q, hq, hb⟩
      exact ⟨x, q, Heap.root_ok hx, by rw [hp]; exact hq, hb⟩
  rw [hl]
  cases T with
  | none =>
    refine iff_of_false ?_ List.not_mem_nil
    rintro ⟨q, hq, hb⟩
    rw [not_below_null hq] at hb
    cases hb
  | some u => exact (block_iff (H.rep u rfl)).symm

/-- What the critical section of a deletion of `k` has to do: the blocks of the cut are those that
the tree has lost, and `leaf` is the one of the key. -/
structure CutOk (root : Addr) (h h' : Heap) (k : Key) (c : Cut) : Prop where
  blocks : ∀ b, b ∈ c.blocks ↔ Linked root h b ∧ ¬ Linked root h' b
  leaf : c.p ≠ .null → c.leaf ∈ c.blocks ∧ ∃ v, h.lookup c.leaf = some (.str ⟨v, k.buf⟩)

/-- What is asked of a deletion behind `wlock`: the leaf that it compares has not been freed since
the cut, the comparison picks the leaf of its key, and the blocks that it frees are those of the cut,
out of the tree and not freed before. -/
def DeleteOk (root : Addr) (s : State Tid) (t : Tid) : Prop :=
  match s.pc t with
  | .delRead _ c a => c.p = .node a ∧ ∃ n, s.heap.node a = .ok n
  | .delCompare k c a n => c.p = .node a ∧ s.heap.node a = .ok n ∧
      (∀ b, n.child false = .str b → b ∈ s.heap ∧ b ∉ s.frees.drop c.mark) ∧
      victim s.heap k.buf n = .ok (.str c.leaf)
  | .delFree k c p w => p = .str c.leaf ∧ (∃ v, s.heap.lookup c.leaf = some (.str ⟨v, k.buf⟩)) ∧
      c.blocks = c.leaf :: w.toList ∧ ∀ b ∈ c.blocks, b ∈ s.heap ∧ ¬ Linked root s.heap b
  | .delFreeNode _ c a => c.p = .node a ∧ a ∈ s.heap ∧ ¬ Linked root s.heap a
  | _ => True

theorem Inv.not_linked (I : Inv root s T) {b : Addr} (hb : b ∈ (s.pc t).garbage) :
    b ∈ s.heap ∧ ¬ Linked root s.heap b := by
  obtain ⟨hm, hout⟩ := I.live t b hb
  exact ⟨hm, fun hl => hout (List.mem_cons_of_mem _ ((linked_iff I.holds).mp hl))⟩

theorem Inv.deleteOk (I : Inv root s T) (t : Tid) : DeleteOk root s t := by
  have hok := I.ok t
  have hg : ∀ b ∈ (s.pc t).garbage, _ := fun b hb => I.not_linked hb
  unfold DeleteOk
  generalize s.pc t = pc at hok hg
  cases pc with
  | delRead k c a =>
    obtain ⟨hp, hI⟩ := hok
    cases hI with
    | null hp' => cases hp'.symm.trans hp
    | leaf hp' => cases hp'.symm.trans hp
    | node hp' hl hn hc hs hf =>
      cases hp'.symm.trans hp
      exact ⟨hp, _, Heap.node_ok hn⟩
  | delCompare k c a n =>
    obtain ⟨hp, hn, hI⟩ := hok
    refine ⟨hp, Heap.node_ok hn, fun b hb => ?_, (hI.victim hp hn).1⟩
    have hfirst := Cut.first_eq hp hn hb
    obtain ⟨x, hx⟩ := hI.first_str hfirst
    refine ⟨Heap.mem_of_lookup hx, ?_⟩
    cases hI with
    | null hp' => cases hp'.symm.trans hp
    | leaf hp' => cases hp'.symm.trans hp
    | node hp' hl hn' hc hs hf => exact hf b hfirst
  | delFree k c p w =>
    obtain ⟨hp, hl, hcase⟩ := hok
    refine ⟨hp, hl, ?_, hg⟩
    unfold Cut.blocks
    rcases hcase with ⟨e, rfl⟩ | ⟨a, n, e, rfl, -⟩
    · rw [e]; rfl
    · rw [e]; rfl
  | delFreeNode k c a => exact ⟨hok.1, hg a (List.mem_singleton_self a)⟩
  | _ => trivial

/-- the only step out of `delEnter` -/
theorem step_unlink [DecidableEq Tid] {act : Act} (hpc : s.pc t = .delEnter k)
    (hs : step root s t act = some s') :
    ∃ p h r, critbitDeleteInplace s.heap root k.buf (int32 (strlen k)) = .ok (p, h) ∧
      h.root root = .ok r ∧ s' = ({ s with heap := h } : State Tid).goto t
        (.delSwapCur k ⟨p, nearestLeaf s.heap root k, s.frees.length⟩ r.cur r.prev) := by
  unfold step at hs
  rw [hpc] at hs
  cases act with
  | go m n =>
    obtain ⟨⟨p, h⟩, e, hs⟩ := toOption_bind hs
    obtain ⟨r, hr, hs⟩ := toOption_bind hs
    exact ⟨p, h, r, e, hr, (Option.some.inj hs).symm⟩
  | get k out => cases hs
  | insert k v => cases hs
  | delete k => cases hs

theorem Inv.cutOk [DecidableEq Tid] (I : Inv root s T) {act : Act} (hpc : s.pc t = .delEnter k)
    (hs : Critbit.step root s t act = some s') {l l' : RwLock}
    (hpc' : s'.pc t = .delSwapCur k c l l') : CutOk root s.heap s'.heap k c := by
  obtain ⟨p, h, r, e, -, rfl⟩ := step_unlink hpc hs
  obtain ⟨-, rfl, -⟩ := Pc.delSwapCur.inj ((Function.update_self ..).symm.trans hpc')
  show CutOk root s.heap h k _
  rcases deleteInplace_spec I.holds k with ⟨-, e'⟩ | ⟨p', h', T', old, e', U⟩
  · obtain ⟨rfl, rfl⟩ := Prod.mk.inj (Except.ok.inj (e.symm.trans e'))
    exact ⟨fun b => iff_of_false List.not_mem_nil fun h1 => h1.2 h1.1, fun h1 => absurd rfl h1⟩
  · obtain ⟨rfl, rfl⟩ := Prod.mk.inj (Except.ok.inj (e.symm.trans e'))
    have hnd := U.nodup I.holds
    have hblocks := U.cut_leaf I.holds s.frees.length
    refine ⟨fun b => ?_, fun hnull => ⟨mem_leaf_blocks hnull, ?_⟩⟩
    · rw [hblocks, linked_iff I.holds, linked_iff U.holds, U.deleted.annots.mem_iff, List.mem_append]
      constructor
      · exact fun hb => ⟨.inl hb, fun h1 =>
          List.disjoint_of_nodup_append hnd hb (List.mem_cons_of_mem _ h1)⟩
      · exact fun hb => hb.1.resolve_right hb.2
    · obtain ⟨a, v, -, ⟨u, rfl, hu⟩, -⟩ := U.blocks I.holds
      rw [nearestLeaf_eq I.holds hu]
      exact ⟨v, (I.holds.rep u rfl).leaf hu⟩

section
variable [DecidableEq Tid]

/-- **A deletion reclaims what it has unlinked**, in every run in which no leaf is freed while another
deletion has yet to compare it. -/
theorem reclaim_exact (hr : Run root Guarded (start root : State Tid) s) :
    (∀ t, DeleteOk root s t) ∧
    ∀ t act s' k c l l', s.pc t = .delEnter k → step root s t act = some s' →
      s'.pc t = .delSwapCur k c l l' → CutOk root s.heap s'.heap k c := by
  obtain ⟨T, I⟩ := (inv_start root).run hr
  exact ⟨I.deleteOk, fun t act s' k c l l' hpc hs hpc' => I.cutOk hpc hs hpc'⟩

end

/-- a deletion that has found the leaf of `b` again, while another thread deletes a key in vain -/
theorem reclaim_exact_two : ∃ s : State Bool, Run 0 Guarded (start 0) s ∧
    s.pc false = .delFree ⟨[98], by decide⟩ ⟨.node 2, 3, 0⟩ (.str 3) (some 2) ∧
    ∀ b ∈ [3, 2], b ∈ s.heap ∧ ¬ Linked 0 s.heap b := by
  have hrun : (steps 0 Guarded (start 0 : State Bool)
      [(false, .insert ⟨[97], by decide⟩ 1), (false, .go none (some 1)), (false, .go none none),
        (false, .go none none), (false, .insert ⟨[98], by decide⟩ 2), (false, .go (some 2) (some 3)),
        (false, .go none none), (false, .go none none), (false, .delete ⟨[98], by decide⟩),
        (false, .go none none), (false, .go none none), (false, .go none none),
        (false, .go none none), (false, .go none none), (true, .delete ⟨[99], by decide⟩),
        (true, .go none none), (false, .go none none), (false, .go none none)]).any fun s =>
      s.pc false = .delFree ⟨[98], by decide⟩ ⟨.node 2, 3, 0⟩ (.str 3) (some 2) := by decide +kernel
  obtain ⟨s, hs, hpc⟩ := (Option.any_eq_true _ _).mp hrun
  have hpc := of_decide_eq_true hpc
  have hr := run_of_steps hs
  have hd := (reclaim_exact hr).1 false
  unfold DeleteOk at hd
  rw [hpc] at hd
  exact ⟨s, hr, hpc, hd.2.2.2⟩

/-- **A deletion frees a leaf of the tree.**  The first thread has unlinked `b` and is about to
compare it with its sibling `a`.  The second one deletes `a`, frees its block, and inserts `b` again, for
which it gets that block. -/
theorem not_reclaim_exact : ∃ s : State Bool, Run 0 (fun _ _ _ => True) (start 0) s ∧
    s.pc false = .delFree ⟨[98], by decide⟩ ⟨.node 2, 3, 0⟩ (.str 1) (some 2) ∧
    Linked 0 s.heap 1 ∧ ¬ DeleteOk 0 s false := by
  have hrun : (steps 0 (fun _ _ _ => True) (start 0 : State Bool)
      [(false, .insert ⟨[97], by decide⟩ 1), (false, .go none (some 1)), (false, .go none none),
        (false, .go none none), (false, .insert ⟨[98], by decide⟩ 2), (false, .go (some 2) (some 3)),
        (false, .go none none), (false, .go none none), (false, .delete ⟨[98], by decide⟩),
        (false, .go none none), (false, .go none none), (false, .go none none),
        (false, .go none none), (false, .go none none), (false, .go none none),
        (true, .delete ⟨[97], by decide⟩), (true, .go none none), (true, .go none none),
        (true, .go none none), (true, .go none none), (true, .go none none), (true, .go none none),
        (true, .insert ⟨[98], by decide⟩ 4), (true, .go none (some 1)), (true, .go none none),
        (true, .go none none), (false, .go none none)]).any fun s =>
      s.pc false = .delFree ⟨[98], by decide⟩ ⟨.node 2, 3, 0⟩ (.str 1) (some 2) ∧
        s.heap.lookup 0 = some (.root ⟨.str 1, .left, .right⟩) := by decide +kernel
  obtain ⟨s, hs, hpc⟩ := (Option.any_eq_true _ _).mp hrun
  obtain ⟨hpc, hhead⟩ := of_decide_eq_true hpc
  refine ⟨s, run_of_steps hs, hpc, ⟨_, .str 1, Heap.root_ok hhead, .refl, rfl⟩, fun hd => ?_⟩
  unfold DeleteOk at hd
  rw [hpc] at hd
  cases hd.1

end Critbit

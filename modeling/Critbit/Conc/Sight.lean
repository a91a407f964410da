import Critbit.Conc.Grace

/-!
# What a lookup may answer

A lookup that has loaded `p` ends at a leaf that depends on what the writers do.  `Sight` says that an
answer it is on the way to has been right at some moment: `as` are the answers that were right since it
has loaded `head`.

* `Inv.untouched`               the steps that leave the tree and what others may be on alone;
* `Pledged.quiet`               they leave alone what an insertion has prepared;
* `Walk.change`                 where a walk ends after the others: at a leaf of the new tree, or where
                                it ended before;
* `Sight.head`, `Sight.child`   the loads of the lookup;
* `Sight.frame`                 the steps of others that leave alone what is ahead of it;
* `Sight.publish`, `Sight.unlink`   the stores of writers, after which another answer is right;
* `Sight.answer`                the answer at the end is one of `as`.
-/

namespace Critbit
open Crit CTree

variable {h h' h₀ : Heap} {root : Addr} {T T' : Option MTree} {k k' : Key} {v out : Val} {p q : Ptr}
  {a b : Addr}

/-! ## what a step leaves alone -/

section
variable {Tid : Type} {s s' : State Tid} {t t' : Tid} {l : RwLock}

/-- a step moves one thread -/
theorem pc_of_ne [DecidableEq Tid] {act : Act} (hs : step root s t act = some s') (hne : t' ≠ t) :
    s'.pc t' = s.pc t' := by
  cases step_trans hs <;> exact Function.update_of_ne hne ..

theorem step_pc [DecidableEq Tid] {act : Act} (hs : step root s t act = some s') :
    s'.pc = Function.update s.pc t (s'.pc t) := by
  funext t'
  by_cases e : t' = t
  · rw [e, Function.update_self]
  · rw [Function.update_of_ne e, pc_of_ne hs e]

/-- what is kept is not the root, and no one frees it -/
theorem Kept.apart (I : Inv root s T) (hk : Kept s T l b) (t : Tid) :
    b ∈ s.heap ∧ b ≠ root ∧ (b ∈ (s.pc t).garbage → (s.pc t).awaits ≠ none) := by
  refine ⟨hk.live I, ?_, fun hb ha => ?_⟩
  · rintro rfl
    rcases hk with hb | ⟨t₁, hb, -⟩
    · exact (List.nodup_cons.mp I.holds.nodup).1 hb
    · exact (I.live t₁ b hb).2 List.mem_cons_self
  · rcases hk with hb' | ⟨t₁, hb', hw⟩
    · exact (I.live t b hb).2 (List.mem_cons_of_mem _ hb')
    · obtain rfl := I.apart t t₁ b hb hb'
      rw [ha] at hw
      cases hw

/-- when a thread writes and waits for no one, what a lookup has ahead of it is in the tree -/
theorem Grace.ahead_tree (G : Grace root s T) (I : Inv root s T) (hw : (s.pc t).writing)
    (ha : (s.pc t).awaits = none) (hpc : s.pc t' = .getAt k out l p) (ho : On s.heap k p b) :
    b ∈ annotsOf T := by
  refine (G.ahead t' k out l p hpc b ho).resolve_right ?_
  rintro ⟨t₁, -, hl⟩
  have e : t₁ = t := by
    by_contra hne
    exact I.alone hw hne (Pc.writing_of_awaits hl)
  rw [e, ha] at hl
  cases hl

theorem lookup_free (e : h.free a = .ok h') (hb : b ≠ a) : h'.lookup b = h.lookup b := by
  unfold Heap.free at e
  split at e
  · cases e
    exact Finmap.lookup_erase_ne hb
  · cases e

/-- **All steps but the stores of writers** leave the tree alone, and all blocks but those that the thread
frees. -/
theorem Inv.untouched [DecidableEq Tid] (I : Inv root s T) {act : Act}
    (hs : Critbit.step root s t act = some s') (S : Stepped root s s' t T T')
    (hp : ∀ ret e, s.pc t ≠ .insPublish ret (some e)) (hd : ∀ k, s.pc t ≠ .delEnter k) :
    T' = T ∧ ∀ b, b ∈ s.heap → b ≠ root → (b ∈ (s.pc t).garbage → (s.pc t).awaits ≠ none) →
      s'.heap.lookup b = s.heap.lookup b := by
  have hS := S.inv.holds
  have hfree : ∀ a ∈ (s.pc t).garbage, (s.pc t).awaits = none → s.heap.free a = .ok s'.heap →
      T' = T ∧ ∀ b, b ∈ s.heap → b ≠ root → (b ∈ (s.pc t).garbage → (s.pc t).awaits ≠ none) →
        s'.heap.lookup b = s.heap.lookup b := by
    intro a ha haw e
    have hsame : ∀ b, b ≠ a → s'.heap.lookup b = s.heap.lookup b := fun b hb => lookup_free e hb
    refine ⟨hS.unique (I.holds.frame fun b hb => hsame b ?_), fun b _ _ hb => hsame b ?_⟩
    · rintro rfl
      exact (I.live t b ha).2 hb
    · rintro rfl
      exact hb ha haw
  cases step_trans hs with
  | @prepare k v m n ret h e hpc he =>
    have hk : (Pc.insEnter k v).Ok s.heap s.frees := hpc ▸ I.ok t
    rcases insertPrepare_spec I.holds hk v m n with ⟨e', -⟩ | ⟨h₁, slot, q, T₁, new, e', P, -⟩
    · cases he.symm.trans e'
      exact ⟨hS.unique I.holds, fun _ _ _ _ => rfl⟩
    · cases he.symm.trans e'
      have hold : ∀ b ∈ s.heap, h.lookup b = s.heap.lookup b := fun b hb =>
        P.frame b fun h1 => P.fresh b h1 hb
      exact ⟨hS.unique (I.holds.frame fun b hb => P.old I.holds hb), fun b hb _ _ => hold b hb⟩
  | @publish ret ret' e h m n hpc he =>
    cases e with
    | none =>
      cases he
      exact ⟨hS.unique I.holds, fun _ _ _ _ => rfl⟩
    | some e => exact absurd hpc (hp ret e)
  | unlink hpc => exact absurd hpc (hd _)
  | swapCur hpc e =>
    obtain ⟨-, -, -, hf, H⟩ := casCur_ok I.holds e
    exact ⟨hS.unique H, fun b _ hb _ => hf b hb⟩
  | swapPrev hpc e =>
    obtain ⟨-, -, -, hf, H⟩ := casPrev_ok I.holds e
    exact ⟨hS.unique H, fun b _ hb _ => hf b hb⟩
  | @freeLeaf k c q e h m n hpc he =>
    obtain ⟨rfl, -, hcase⟩ : (Pc.delFree k c q e).Ok s.heap s.frees := hpc ▸ I.ok t
    have hnull : c.p ≠ .null := by
      intro e'
      rcases hcase with ⟨e1, -⟩ | ⟨a, n, e1, -⟩ <;> cases e'.symm.trans e1
    exact hfree c.leaf (by rw [hpc]; exact mem_leaf_blocks hnull) (by rw [hpc]; rfl) he
  | @freeNode k c a h m n hpc he =>
    exact hfree a (by rw [hpc]; exact List.mem_singleton_self a) (by rw [hpc]; rfl) he
  | _ => exact ⟨hS.unique I.holds, fun _ _ _ _ => rfl⟩

/-- the blocks `new` of an insertion of `k` are complete, and the store of `p` to `slot` publishes them -/
def Pledged (root : Addr) (s : State Tid) (T : Option MTree) (k : Key) (v : Val) (slot : Slot)
    (p : Ptr) (new : List Addr) : Prop :=
  ∃ h₀ T', Short k ∧ Holds h₀ root T ∧ Prepared h₀ root T k v s.heap slot p T' new ∧
    ∀ t b, b ∈ (s.pc t).garbage → b ∉ new

/-- they are until they are published -/
theorem Pledged.quiet [DecidableEq Tid] {slot : Slot} {new : List Addr} {pc : Pc}
    (P : Pledged root s T k v slot p new) (hs : s'.pc = Function.update s.pc t pc)
    (H : Holds s'.heap root T)
    (hf : ∀ b, b ∈ s.heap → b ≠ root → (b ∈ (s.pc t).garbage → (s.pc t).awaits ≠ none) →
      s'.heap.lookup b = s.heap.lookup b)
    (hg : ∀ b ∈ pc.garbage, b ∈ (s.pc t).garbage) : Pledged root s' T k v slot p new := by
  obtain ⟨h₀, T₁, hk, H₀, P, hnew⟩ := P
  have hsame : ∀ b ∈ new, s'.heap.lookup b = s.heap.lookup b := fun b hb => by
    refine hf b (P.mem_iff.mpr (.inl hb)) ?_ fun h1 => absurd hb (hnew t b h1)
    rintro rfl
    exact P.fresh b hb (H₀.mem List.mem_cons_self)
  obtain ⟨g, Hg, Pg⟩ := P.reframe H₀ H hsame
  refine ⟨g, T₁, hk, Hg, Pg, fun t₁ b hb => ?_⟩
  by_cases e₁ : t₁ = t
  · subst e₁
    rw [hs, Function.update_self] at hb
    exact hnew t₁ b (hg b hb)
  · rw [hs, Function.update_of_ne e₁] at hb
    exact hnew t₁ b hb

/-- an insertion has prepared them -/
theorem Pledged.of_prepared [DecidableEq Tid] {slot : Slot} {new : List Addr} {pc : Pc} (I : Inv root s T)
    (hk : Short k) (P : Prepared s.heap root T k v h slot p T' new) (hpc : pc.garbage = []) :
    Pledged root (({ s with heap := h } : State Tid).goto t pc) T k v slot p new := by
  refine ⟨s.heap, T', hk, I.holds, P, fun t' b hb hb' => ?_⟩
  replace hb : b ∈ (Function.update s.pc t pc t').garbage := hb
  by_cases e : t' = t
  · rw [e, Function.update_self, hpc] at hb
    cases hb
  · rw [Function.update_of_ne e] at hb
    exact P.fresh b hb' (I.live t' b hb).1

end

/-! ## walks and leaves -/

theorem Next.frame (hf : ∀ b, p.block = some b → h'.lookup b = h.lookup b) (hn : Next h k p q) :
    Next h' k p q := by
  obtain ⟨a, d, rfl, n, hn, hd, hq⟩ := hn
  exact ⟨a, d, rfl, n, Heap.node_ok ((hf a rfl).trans (Heap.node_inv hn)), hd, hq⟩

theorem On.next (hn : Next h k p q) (ho : On h k q b) : On h k p b := by
  obtain ⟨r, hw, hb⟩ := ho
  exact ⟨r, .head hn hw, hb⟩

/-- a walk does not depend on blocks that are not ahead -/
theorem walk_frame (hf : ∀ b, On h k p b → h'.lookup b = h.lookup b) :
    Walk h' k p q ↔ Walk h k p q := by
  constructor
  · intro hw
    induction hw using Relation.ReflTransGen.head_induction_on with
    | refl => exact .refl
    | @head p r hn _ ih =>
      have hn' : Next h k p r := hn.frame fun b hb => (hf b ⟨p, .refl, hb⟩).symm
      exact .head hn' (ih fun b hb => hf b (hb.next hn'))
  · intro hw
    induction hw using Relation.ReflTransGen.head_induction_on with
    | refl => exact .refl
    | @head p r hn _ ih =>
      have hn' : Next h' k p r := hn.frame fun b hb => hf b ⟨p, .refl, hb⟩
      exact .head hn' (ih fun b hb => hf b (hb.next hn))

/-- **The end of a walk after a change of the heap**, if all that was on it is in the new tree or has been
left alone. -/
theorem Walk.change {G : Addr → Prop} (hr : ∀ u ∈ T', Rep h' u)
    (hall : ∀ c, On h k p c → c ∈ annotsOf T' ∨ G c) (hG : ∀ c, G c → h'.lookup c = h.lookup c)
    (hw : Walk h' k p (.str a)) : a ∈ annotsOf T' ∨ Walk h k p (.str a) ∧ G a := by
  induction hw using Relation.ReflTransGen.head_induction_on with
  | refl => exact (hall a ⟨_, .refl, rfl⟩).imp id fun hg => ⟨.refl, hg⟩
  | @head p r hn hrest ih =>
    obtain ⟨c, d, rfl, n, hnode, hdir, hq⟩ := hn
    rcases hall c ⟨_, .refl, rfl⟩ with hc | hc
    · -- in the tree already
      cases T' with
      | none => exact absurd hc List.not_mem_nil
      | some u =>
        have ho : On h' k (.node c) a := ⟨_, .head ⟨c, d, rfl, n, hnode, hdir, hq⟩ hrest, rfl⟩
        exact .inl (on_of_block (hr u rfl) rfl hc ho)
    · have hold : Next h k (.node c) r :=
        ⟨c, d, rfl, n, Heap.node_ok ((hG c hc).symm.trans (Heap.node_inv hnode)), hdir, hq⟩
      exact (ih fun e he => hall e (he.next hold)).imp id fun ⟨hw, hg⟩ => ⟨.head hold hw, hg⟩

/-- a leaf of the tree has a key, and its value -/
theorem Holds.leaf (H : Holds h root T) (ha : a ∈ annotsOf T) {x : Str}
    (hx : h.lookup a = some (.str x)) :
    ∃ y, x.chars = Key.buf y ∧ valueOf T y = some x.value := by
  cases T with
  | none => exact absurd ha List.not_mem_nil
  | some t =>
    obtain ⟨u, hu, rfl⟩ := exists_sub_top ha
    cases u with
    | node b i c => cases hx.symm.trans ((H.rep t rfl).sub hu).node
    | leaf b y w =>
      have hleaf : Finmap.lookup b h = some (.str ⟨w, y.buf⟩) := (H.rep t rfl).sub hu
      cases hx.symm.trans hleaf
      have hm : (b, y, w) ∈ t.leaves := hu.leaves List.mem_cons_self
      exact ⟨y, rfl, (valueOf_eq_some H.good).mpr (List.mem_map_of_mem (f := Prod.snd) hm)⟩

/-- in a tree the walk ends at the leaf of a bound key -/
theorem Holds.walk (H : Holds h root T) {w : Val} (hv : valueOf T k = some w) :
    ∃ a, Walk h k (ptrOf T) (.str a) ∧ h.lookup a = some (.str ⟨w, k.buf⟩) := by
  have hm : k ∈ keysOf T := by
    by_contra hno
    cases hv.symm.trans (valueOf_eq_none.mpr hno)
  cases T with
  | none => exact absurd hm List.not_mem_nil
  | some t =>
    have hg := H.good t rfl
    have hw := walk_nearest (H.rep t rfl) hg (short_of_mem H.good hm)
    have e := nearest_str (H.rep t rfl) k
    obtain ⟨a, ha, hlook⟩ := Heap.str_inv e
    cases ha
    obtain ⟨y, hy, hval⟩ := H.leaf (On.sub (H.rep t rfl) ⟨_, hw, rfl⟩) hlook
    rw [nearest_of_mem hg.wf hm] at hy
    obtain rfl : k = y := Key.buf_inj hy
    rw [hv, Option.some.injEq] at hval
    exact ⟨_, hw, by rw [hlook, nearest_of_mem hg.wf hm, hval]⟩

/-! ## answers -/

/-- what the caller of a lookup sees -/
def shown (r : Int × Val) : Answer := (r.1, some r.2)

/-- the right answer if `w` is bound -/
def reply (w : Option Val) (out : Val) : Answer := shown (answer w out)

/-- if it is not `1`, the key is bound -/
theorem bound_of_reply {w : Option Val} (h : (1, some out) ≠ reply w out) : w ≠ none := by
  rintro rfl
  exact h rfl

/-- A lookup of `k` has loaded `p`.  If it is on the way to the leaf of `k`, then the value there has been
right; if it has been right to answer `1`, it need not be on the way there. -/
structure Sight (h : Heap) (k : Key) (out : Val) (p : Ptr) (as : Set Answer) : Prop where
  sound : ∀ a x, Walk h k p (.str a) → h.lookup a = some (.str x) →
    ∃ y, x.chars = Key.buf y ∧ (y = k → (0, some x.value) ∈ as)
  complete : (1, some out) ∉ as →
    ∃ a w, Walk h k p (.str a) ∧ h.lookup a = some (.str ⟨w, k.buf⟩)

namespace Sight
variable {as : Set Answer}

/-- more answers -/
theorem grow (S : Sight h k out p as) (r : Answer) : Sight h k out p (insert r as) where
  sound a x hw hx := by
    obtain ⟨y, hy, hin⟩ := S.sound a x hw hx
    exact ⟨y, hy, fun e => .inr (hin e)⟩
  complete hno := S.complete fun h1 => hno (.inr h1)

/-! ## the loads of the lookup -/

theorem head (H : Holds h root T) (k : Key) (out : Val) :
    Sight h k out (ptrOf T) {reply (valueOf T k) out} where
  sound a x hw hx := by
    cases T with
    | none =>
      cases not_below_null (Relation.ReflTransGen.mono (fun _ _ => Next.child) _ _ hw)
    | some t =>
      obtain ⟨y, hy, hv⟩ := H.leaf (On.sub (H.rep t rfl) ⟨_, hw, rfl⟩) hx
      refine ⟨y, hy, ?_⟩
      rintro rfl
      rw [hv]
      exact Set.mem_singleton _
  complete hno := by
    obtain ⟨w, hw⟩ := Option.ne_none_iff_exists'.mp (bound_of_reply hno)
    obtain ⟨a, hwalk, ha⟩ := H.walk hw
    exact ⟨a, w, hwalk, ha⟩

theorem child (S : Sight h k out p as) (hn : Next h k p q) : Sight h k out q as where
  sound a x hw hx := S.sound a x (.head hn hw) hx
  complete hno := by
    obtain ⟨a, w, hw, ha⟩ := S.complete hno
    exact ⟨a, w, hw.next hn, ha⟩

/-- **The answer.** -/
theorem answer (S : Sight h k out p as) {r : Int × Val} (e : getResult h p k.buf out = .ok r) :
    shown r ∈ as := by
  unfold getResult at e
  obtain ⟨x, hx, e⟩ := ok_of_bind e
  obtain ⟨c, hc, e⟩ := ok_of_bind e
  obtain ⟨a, rfl, hlook⟩ := Heap.str_inv hx
  obtain ⟨y, hy, hin⟩ := S.sound a x .refl hlook
  obtain ⟨c', hc', h0⟩ := strcmp_buf y k
  rw [hy, hc', Except.ok.injEq] at hc
  subst hc
  rw [pure_ok, Except.ok.injEq] at e
  subst e
  by_cases hyk : y = k
  · rw [if_pos (h0.mpr hyk)]
    exact hin hyk
  · rw [if_neg fun h1 => hyk (h0.mp h1)]
    by_contra hno
    obtain ⟨b, w, hw, hb⟩ := S.complete hno
    cases hw.of_str
    cases hlook.symm.trans hb
    exact hyk (Key.buf_inj hy).symm

/-! ## the steps of others -/

/-- nothing ahead of the lookup changes -/
theorem frame (S : Sight h k out p as) (hf : ∀ b, On h k p b → h'.lookup b = h.lookup b) :
    Sight h' k out p as where
  sound a x hw hx := by
    have hw' := (walk_frame hf).mp hw
    exact S.sound a x hw' ((hf a ⟨_, hw', rfl⟩).symm.trans hx)
  complete hno := by
    obtain ⟨a, w, hw, ha⟩ := S.complete hno
    exact ⟨a, w, (walk_frame hf).mpr hw, (hf a ⟨_, hw, rfl⟩).trans ha⟩

/-- a store of a writer, after which the leaf of a bound key is still on the way -/
theorem store (S : Sight h k out p as) (H' : Holds h' root T') {G : Addr → Prop}
    (hall : ∀ c, On h k p c → c ∈ annotsOf T' ∨ G c) (hG : ∀ c, G c → h'.lookup c = h.lookup c)
    (hstr : ∀ c x, h.lookup c = some (.str x) → h'.lookup c = some (.str x))
    (hwalk : k ∈ keysOf T' → ∀ a w, Walk h k p (.str a) → h.lookup a = some (.str ⟨w, k.buf⟩) →
      Walk h' k p (.str a)) : Sight h' k out p (insert (reply (valueOf T' k) out) as) where
  sound a x hw hx := by
    rcases hw.change H'.rep hall hG with ha | ⟨hw', ha⟩
    · obtain ⟨y, hy, hv⟩ := H'.leaf ha hx
      refine ⟨y, hy, ?_⟩
      rintro rfl
      rw [hv]
      exact Set.mem_insert _ _
    · obtain ⟨y, hy, hin⟩ := S.sound a x hw' ((hG a ha).symm.trans hx)
      exact ⟨y, hy, fun e => .inr (hin e)⟩
  complete hno := by
    obtain ⟨a, w, hw, ha⟩ := S.complete fun h1 => hno (.inr h1)
    have hb := bound_of_reply fun e => hno (.inl e)
    have hk : k ∈ keysOf T' := by
      by_contra h1
      exact hb (valueOf_eq_none.mpr h1)
    exact ⟨a, w, hwalk hk a w hw ha, hstr a _ ha⟩

theorem publish {s : Slot} {r : Ptr} {new : List Addr} (S : Sight h k out p as)
    (H : Holds h₀ root T) (P : Prepared h₀ root T k' v h s r T' new) (hk' : Short k')
    (hs : h.store s r = .ok h') (hall : ∀ c, On h k p c → c ∈ annotsOf T) :
    Sight h' k out p (insert (reply (valueOf T' k) out) as) := by
  obtain ⟨h₁, hs₁, H'⟩ := P.publish H hk'
  obtain rfl := Except.ok.inj (hs₁.symm.trans hs)
  refine S.store H' (G := fun _ => False)
    (fun c hc => .inl (P.inserted.annots.mem_iff.mpr (List.mem_append_right _ (hall c hc))))
    (fun c hc => hc.elim) (fun c x hc => Heap.store_str hs hc) fun hm a w hw ha => ?_
  exact walk_publish H P hs (short_of_mem H'.good hm) hw (Heap.str_ok ha)

theorem unlink {r : Ptr} {old : List Addr} (S : Sight h k out p as) (H : Holds h root T)
    (U : Unlinked h root T k' r h' T' old) (hall : ∀ c, On h k p c → c ∈ annotsOf T) :
    Sight h' k out p (insert (reply (valueOf T' k) out) as) := by
  obtain ⟨s, q, hs, -⟩ := U.store
  have hout : ∀ c ∈ old, c ∉ root :: annotsOf T' := fun c hc h1 =>
    List.disjoint_of_nodup_append (U.nodup H) hc h1
  refine S.store U.holds (G := (· ∈ old))
    (fun c hc => (List.mem_append.mp (U.deleted.annots.mem_iff.mp (hall c hc))).symm)
    (fun c hc => U.frame (hout c hc)) (fun c x hc => Heap.store_str hs hc) fun hm a w hw ha => ?_
  have hne : k ≠ k' := by
    rintro rfl
    exact U.deleted.not_mem H.good hm
  exact walk_unlink H U (short_of_mem U.holds.good hm) hne hw (Heap.str_ok ha)

end Sight

end Critbit

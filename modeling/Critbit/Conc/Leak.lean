import Critbit.Run.Blocks
import Critbit.Conc.Sight

/-!
# No memory is lost

Every live block is the root record, or reached from `head`, or a deletion has unlinked it and is going to
free it, or an insertion has filled it and is going to publish it (`Accounted`).  So when no thread is in
a call the live blocks are those of the tree (`no_leak`).
-/

namespace Critbit
open Crit CTree

variable {Tid : Type} {root : Addr} {h h' : Heap} {T T' : Option MTree} {k : Key} {v : Val}
  {s s' : State Tid} {t t' : Tid} {b : Addr} {act : Act}

/-- an insertion has filled the block and not yet published it -/
def Filled (root : Addr) (s : State Tid) (T : Option MTree) (b : Addr) : Prop :=
  ∃ t ret slot p k v new, s.pc t = .insPublish ret (some (slot, p)) ∧
    Pledged root s T k v slot p new ∧ b ∈ new

def Accounted (root : Addr) (s : State Tid) (T : Option MTree) : Prop :=
  ∀ b ∈ s.heap, b ∈ root :: annotsOf T ∨ (∃ t, b ∈ (s.pc t).garbage) ∨ Filled root s T b

/-- it holds `wlock` -/
theorem Filled.writing (F : Filled root s T b) : ∃ t, (s.pc t).writing ∧
    ∃ ret e, s.pc t = .insPublish ret (some e) := by
  obtain ⟨t, ret, slot, p, k, v, new, hpc, -⟩ := F
  exact ⟨t, by rw [hpc]; rfl, ret, (slot, p), hpc⟩

/-- the store of the insertion reaches all its blocks -/
theorem Filled.published (F : Filled root s T b) (I : Inv root s T) (hw : (s.pc t).writing)
    {ret : Int} {slot : Slot} {p : Ptr} (hpc : s.pc t = .insPublish ret (some (slot, p)))
    (hst : s.heap.store slot p = .ok h') (H' : Holds h' root T') : b ∈ annotsOf T' := by
  obtain ⟨t', ret', slot', p', k, v, new, hpc', ⟨h₀, T₁, hk, H, P, -⟩, hb⟩ := F
  have e : t' = t := by
    by_contra hne
    exact I.alone hw hne (by rw [hpc']; rfl)
  rw [e, hpc] at hpc'
  obtain ⟨-, e₂⟩ := Pc.insPublish.inj hpc'
  cases e₂
  obtain ⟨g, hg, H₁⟩ := P.publish H hk
  obtain rfl := Except.ok.inj (hg.symm.trans hst)
  obtain rfl := H₁.unique H'
  exact P.inserted.annots.mem_iff.mpr (List.mem_append_left _ hb)

theorem afterUnlock_garbage (k : Key) (c : Cut) : (afterUnlock k c).garbage = c.blocks := by
  unfold afterUnlock
  cases hp : c.p with
  | null =>
    show [] = c.blocks
    unfold Cut.blocks
    rw [hp]
  | str a => rfl
  | node a => rfl

theorem mem_free {a : Addr} (e : h.free a = .ok h') : b ∈ h' ↔ b ≠ a ∧ b ∈ h := by
  unfold Heap.free at e
  split at e
  · cases e
    exact Finmap.mem_erase
  · cases e

section
variable [DecidableEq Tid]

/-- the steps of readers, and of deletions behind their store, allocate nothing, and what the thread
forgets it has freed -/
theorem garbage_step (I : Inv root s T) (hs : step root s t act = some s')
    (hi : ∀ k v, s.pc t ≠ .insEnter k v) (hp : ∀ ret e, s.pc t ≠ .insPublish ret (some e))
    (hd : ∀ k, s.pc t ≠ .delEnter k) :
    (∀ b ∈ (s'.pc t).garbage, b ∈ (s.pc t).garbage) ∧
    ∀ b ∈ s'.heap, b ∈ s.heap ∧ (b ∈ (s.pc t).garbage → b ∈ (s'.pc t).garbage) := by
  have self : ∀ (g : State Tid) pc, (g.goto t pc).pc t = pc := fun g pc => Function.update_self ..
  have hkeys : ∀ {h}, (∀ b, b ≠ root → Finmap.lookup b h = s.heap.lookup b) → ∀ b ∈ h, b ∈ s.heap := by
    intro h hf b hb
    by_cases e : b = root
    · exact e ▸ I.holds.mem List.mem_cons_self
    · rwa [Finmap.mem_iff, hf b e, ← Finmap.mem_iff (s := s.heap)] at hb
  cases step_trans hs with
  | prepare hpc => exact absurd hpc (hi _ _)
  | @publish ret ret' e h m n hpc he =>
    cases e with
    | none =>
      cases he
      rw [self, hpc]
      exact ⟨nofun, fun b hb => ⟨hb, nofun⟩⟩
    | some e => exact absurd hpc (hp ret e)
  | unlink hpc => exact absurd hpc (hd _)
  | swapCur hpc e =>
    obtain ⟨-, -, -, hf, -⟩ := casCur_ok I.holds e
    rw [self, hpc]
    exact ⟨fun b hb => hb, fun b hb => ⟨hkeys hf b hb, fun h => h⟩⟩
  | swapPrev hpc e =>
    obtain ⟨-, -, -, hf, -⟩ := casPrev_ok I.holds e
    rw [self, hpc]
    exact ⟨fun b hb => hb, fun b hb => ⟨hkeys hf b hb, fun h => h⟩⟩
  | delUnlock hpc =>
    rw [self, hpc, afterUnlock_garbage]
    exact ⟨fun b hb => hb, fun b hb => ⟨hb, fun h => h⟩⟩
  | @freeLeaf k c p w h m n hpc e =>
    obtain ⟨rfl, -, hcase⟩ : (Pc.delFree k c p w).Ok s.heap s.frees := hpc ▸ I.ok t
    have hmem : ∀ b, b ∈ h ↔ b ≠ c.leaf ∧ b ∈ s.heap := fun b => mem_free e
    rw [self, hpc]
    rcases hcase with ⟨hcp, rfl⟩ | ⟨a, x, hcp, rfl, -⟩
    · have hb : c.blocks = [c.leaf] := by unfold Cut.blocks; rw [hcp]
      exact ⟨nofun, fun b hb' => ⟨((hmem b).mp hb').2, fun h1 =>
        absurd (List.mem_singleton.mp (hb ▸ h1)) ((hmem b).mp hb').1⟩⟩
    · have hb : c.blocks = [c.leaf, a] := by unfold Cut.blocks; rw [hcp]
      have hin : ∀ b ∈ [a], b ∈ c.blocks := fun b h1 => hb ▸ List.mem_cons_of_mem _ h1
      refine ⟨hin, fun b hb' => ⟨((hmem b).mp hb').2, fun h1 => ?_⟩⟩
      exact (List.mem_cons.mp (hb ▸ h1)).resolve_left ((hmem b).mp hb').1
  | @freeNode k c a h m n hpc e =>
    rw [self, hpc]
    exact ⟨nofun, fun b hb => ⟨((mem_free e).mp hb).2, fun h1 =>
      absurd (List.mem_singleton.mp h1) ((mem_free e).mp hb).1⟩⟩
  | _ hpc =>
    rw [self, hpc]
    exact ⟨fun b hb => hb, fun b hb => ⟨hb, fun h => h⟩⟩

/-- a step of a thread that is about to write: what it does to the blocks of the others -/
theorem Accounted.others (A : Accounted root s T) (I : Inv root s T) (hw : (s.pc t).writing)
    (hg : (s.pc t).garbage = []) (hno : ∀ ret e, s.pc t ≠ .insPublish ret (some e))
    (hs : step root s t act = some s') (hb : b ∈ s.heap) :
    b ∈ root :: annotsOf T ∨ ∃ t', b ∈ (s'.pc t').garbage := by
  rcases A b hb with hb | ⟨t', hb⟩ | F
  · exact .inl hb
  · refine .inr ⟨t', ?_⟩
    by_cases e : t' = t
    · rw [e, hg] at hb
      cases hb
    · rwa [pc_of_ne hs e]
  · obtain ⟨t', hw', ret, e, hpc⟩ := F.writing
    by_cases e' : t' = t
    · exact absurd (e' ▸ hpc) (hno ret e)
    · exact absurd hw' (I.alone hw e')

/-- **One step.** -/
theorem Accounted.step (A : Accounted root s T) (I : Inv root s T)
    (hs : Critbit.step root s t act = some s') (S : Stepped root s s' t T T') :
    Accounted root s' T' := by
  intro b hb
  by_cases hi : ∃ k v, s.pc t = .insEnter k v
  · obtain ⟨k, v, hpc⟩ := hi
    have hother : b ∈ s.heap → _ := fun hb' =>
      A.others I (t := t) (by rw [hpc]; rfl) (by rw [hpc]; rfl) (by rw [hpc]; nofun) hs hb'
    have hT := S.inv.holds
    cases step_trans hs with
    | @prepare k' v' m n ret h e hpc' he =>
      obtain ⟨rfl, rfl⟩ := Pc.insEnter.inj (hpc.symm.trans hpc')
      have hk : (Pc.insEnter k v).Ok s.heap s.frees := hpc ▸ I.ok t
      rcases insertPrepare_spec I.holds hk v m n with ⟨e', -⟩ | ⟨h₁, slot, q, T₁, new, e', P, -⟩
      · cases he.symm.trans e'
        rw [hT.unique I.holds]
        exact (hother hb).imp id .inl
      · cases he.symm.trans e'
        rw [hT.unique (I.holds.frame fun b hb => P.old I.holds hb)]
        rcases P.mem_iff.mp hb with hb' | hb'
        · refine .inr (.inr ⟨t, 0, slot, q, k, v, new, Function.update_self .., ?_, hb'⟩)
          exact .of_prepared I hk P rfl
        · exact (hother hb').imp id .inl
    | _ hpc' => cases hpc.symm.trans hpc'
  by_cases hp : ∃ ret e, s.pc t = .insPublish ret (some e)
  · obtain ⟨ret, ⟨slot, q⟩, hpc⟩ := hp
    have hw : (s.pc t).writing := by rw [hpc]; rfl
    have hT := S.inv.holds
    cases step_trans hs with
    | @publish ret' r' e h m n hpc' he =>
      obtain ⟨rfl, rfl⟩ := Pc.insPublish.inj (hpc.symm.trans hpc')
      obtain ⟨h', hst, he⟩ := ok_of_bind (x := s.heap.store slot q) he
      cases he
      have hb' : b ∈ s.heap := (Heap.store_mem hst).mp hb
      rcases A b hb' with hb' | ⟨t', hb'⟩ | F
      · rcases List.mem_cons.mp hb' with rfl | hb'
        · exact .inl List.mem_cons_self
        · refine .inl (List.mem_cons_of_mem _ ((S.tree b hb').resolve_right fun h1 => ?_))
          replace h1 : b ∈ (Function.update s.pc t (.insUnlock ret) t).garbage := h1
          rw [Function.update_self] at h1
          cases h1
      · refine .inr (.inl ⟨t', ?_⟩)
        by_cases e : t' = t
        · rw [e, hpc] at hb'
          cases hb'
        · rwa [pc_of_ne hs e]
      · exact .inl (List.mem_cons_of_mem _ (F.published I hw hpc hst hT))
    | _ hpc' => cases hpc.symm.trans hpc'
  by_cases hd : ∃ k, s.pc t = .delEnter k
  · obtain ⟨k, hpc⟩ := hd
    have hb' : b ∈ s.heap := by
      obtain ⟨q, h, r, he, -, rfl⟩ := step_unlink hpc hs
      rcases deleteInplace_spec I.holds k with ⟨-, e'⟩ | ⟨q', h', T₁, old, e', U⟩
      · obtain ⟨-, rfl⟩ := Prod.mk.inj (Except.ok.inj (he.symm.trans e'))
        exact hb
      · obtain ⟨-, rfl⟩ := Prod.mk.inj (Except.ok.inj (he.symm.trans e'))
        exact U.mem_iff.mp hb
    rcases A.others I (t := t) (by rw [hpc]; rfl) (by rw [hpc]; rfl) (by rw [hpc]; nofun) hs hb' with
      hb' | hb'
    · rcases List.mem_cons.mp hb' with rfl | hb'
      · exact .inl List.mem_cons_self
      · exact (S.tree b hb').imp (List.mem_cons_of_mem _) fun h1 => .inl ⟨t, h1⟩
    · exact .inr (.inl hb')
  · obtain ⟨hg, hkeep⟩ := garbage_step I hs (fun k v e => hi ⟨k, v, e⟩) (fun ret e h => hp ⟨ret, e, h⟩)
      fun k e => hd ⟨k, e⟩
    obtain ⟨rfl, hf⟩ := I.untouched hs S (fun ret e h => hp ⟨ret, e, h⟩) fun k e => hd ⟨k, e⟩
    obtain ⟨hb', hgb⟩ := hkeep b hb
    rcases A b hb' with hb' | ⟨t', hb'⟩ | ⟨t', ret, slot, p, k, v, new, hpc, P, hb'⟩
    · exact .inl hb'
    · refine .inr (.inl ⟨t', ?_⟩)
      by_cases e : t' = t
      · exact e ▸ hgb (e ▸ hb')
      · rwa [pc_of_ne hs e]
    · have hne : t' ≠ t := by
        rintro rfl
        exact hp ⟨ret, (slot, p), hpc⟩
      exact .inr (.inr ⟨t', ret, slot, p, k, v, new, (pc_of_ne hs hne).trans hpc,
        P.quiet (step_pc hs) S.inv.holds hf hg, hb'⟩)

theorem accounted_run (hr : Run root Guarded (start root) s) : ∃ T, Inv root s T ∧ Accounted root s T := by
  induction hr with
  | refl =>
    refine ⟨none, inv_start root, fun b hb => .inl ?_⟩
    exact ((critbitNew_owns (critbitNew_fresh root)).live b).mp hb
  | tail _ hs ih =>
    obtain ⟨T, I, A⟩ := ih
    obtain ⟨t, act, hg, hs⟩ := hs
    obtain ⟨T', S⟩ := I.step hg hs
    exact ⟨T', S.inv, A.step I hs S⟩

/-- **No memory is lost**: what is live is the root record, the blocks that are reached from `head`, what
deletions have unlinked and are going to free, and what an insertion is about to publish; so when no
thread is in a call, it is what is reached from `head`, `2 n` blocks for `n > 0` keys. -/
theorem no_leak (hr : Run root Guarded (start root) s) :
    (∀ b ∈ s.heap, b = root ∨ Linked root s.heap b ∨ (∃ t, b ∈ (s.pc t).garbage) ∨
      ∃ t ret slot p, s.pc t = .insPublish ret (some (slot, p)) ∧
        ∃ h, s.heap.store slot p = .ok h ∧ Linked root h b) ∧
    ((∀ t, s.pc t = .idle) → ∃ r n, s.heap.root root = .ok r ∧ Balanced s.heap root r.head n) := by
  obtain ⟨T, I, A⟩ := accounted_run hr
  refine ⟨fun b hb => ?_, fun hidle => ?_⟩
  · rcases A b hb with hb | hb | ⟨t, ret, slot, p, k, v, new, hpc, ⟨h₀, T₁, hk, H, P, -⟩, hb⟩
    · exact (List.mem_cons.mp hb).imp id fun hb => .inl ((linked_iff I.holds).mpr hb)
    · exact .inr (.inr (.inl hb))
    · obtain ⟨h, hst, H'⟩ := P.publish H hk
      have hb' : b ∈ annotsOf T₁ := P.inserted.annots.mem_iff.mpr (List.mem_append_left _ hb)
      exact .inr (.inr (.inr ⟨t, ret, slot, p, hpc, h, hst, (linked_iff H').mpr hb'⟩))
  · have O : Owns s.heap root T := ⟨I.holds, fun b => ⟨fun hb => ?_, I.holds.mem⟩⟩
    · obtain ⟨x, hx, hp⟩ := O.record
      refine ⟨x, (keysOf T).length, Heap.root_ok hx, ?_⟩
      cases T with
      | none => exact balanced_empty O hp
      | some t => exact balanced_tree O hp ((Heap.load_head hx).trans (congrArg _ hp))
    · rcases A b hb with hb | ⟨t, hb⟩ | ⟨t, ret, slot, p, k, v, new, hpc, -⟩
      · exact hb
      · rw [hidle t] at hb
        cases hb
      · cases (hidle t).symm.trans hpc

end

/-- a deletion has ended, with a key left -/
theorem no_leak_one : ∃ s : State Bool, Run 0 Guarded (start 0) s ∧ s.pc = (fun _ => .idle) ∧
    s.frees = [3, 2] ∧ ∃ r n, s.heap.root 0 = .ok r ∧ Balanced s.heap 0 r.head n := by
  have hrun : (steps 0 Guarded (start 0 : State Bool)
      [(false, .insert ⟨[97], by decide⟩ 1), (false, .go none (some 1)), (false, .go none none),
        (false, .go none none), (true, .insert ⟨[98], by decide⟩ 2), (true, .go (some 2) (some 3)),
        (true, .go none none), (true, .go none none), (false, .delete ⟨[98], by decide⟩),
        (false, .go none none), (false, .go none none), (false, .go none none),
        (false, .go none none), (false, .go none none), (false, .go none none),
        (false, .go none none), (false, .go none none), (false, .go none none)]).any fun s =>
      s.pc = (fun _ => .idle) ∧ s.frees = [3, 2] := by decide +kernel
  obtain ⟨s, hs, hpc⟩ := (Option.any_eq_true _ _).mp hrun
  obtain ⟨hidle, hfrees⟩ := of_decide_eq_true hpc
  have hr := run_of_steps hs
  exact ⟨s, hr, hidle, hfrees, (no_leak hr).2 fun t => by rw [hidle]⟩

end Critbit

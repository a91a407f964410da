import Critbit.Object.Linear
import Critbit.Conc.Sight

/-!
# All calls are linearizable

The map as an object that threads share (`mapObject`), and what is seen of a run of the machine
(`event`): calls and answers.

* `Pc.Shows`              where the calls of a thread are in the machine and at the object;
* `Shared`                the relation between the two, which holds along every run;
* `Shared.quiet`, `Shared.effect`   a step that is not seen at the object, and a step of a writer that
                          changes the map or finds out that it cannot;
* `linearizable`          every history of the machine is one of the map with atomic calls.
-/

namespace Critbit
open Crit CTree Obj

/-! ## the object -/

inductive Update where
  | insert (k : Key) (v : Val)
  | delete (k : Key)
deriving DecidableEq

/-- An insertion may fail for want of memory if `mayFail`.  A lookup has a key and `*out`. -/
def mapObject (mayFail : Bool) : Object Map Update (Key × Val) Answer where
  upd
    | .insert k v, m, a, m' => ∃ g, (g = false → mayFail) ∧ a = ((m.insert g k v).1, none) ∧
        m' = (m.insert g k v).2
    | .delete k, m, a, m' => a = ((m.delete k).1, none) ∧ m' = (m.delete k).2
  ans q m := reply (m q.1) q.2

variable {Tid : Type} {root : Addr} {h h' h₀ : Heap} {T T' : Option MTree} {k k' : Key} {v out : Val}
  {s s' : State Tid} {t t' : Tid} {p : Ptr} {b : Addr} {mayFail : Bool}

/-! ## what is seen -/

/-- the calls, and the returns with their answers -/
def event (s : State Tid) (t : Tid) : Act → Option (Event Tid Update (Key × Val) Answer)
  | .get k out => some (.call t (.look (k, out)))
  | .insert k v => some (.call t (.upd (.insert k v)))
  | .delete k => some (.call t (.upd (.delete k)))
  | .go _ _ =>
    match s.pc t with
    | .getUnlock _ ret => some (.ret t (shown ret))
    | .insUnlock ret => some (.ret t (ret, none))
    | .delUnlock _ c => if c.p = .null then some (.ret t (1, none)) else none
    | .delFree _ _ _ none => some (.ret t (0, none))
    | .delFreeNode _ _ _ => some (.ret t (0, none))
    | _ => none

def Pc.preparing : Pc → Bool
  | .insEnter _ _ => true
  | _ => false

/-- the `malloc`s of the insertion do not fail -/
def Granted (root : Addr) (s : State Tid) (t : Tid) : Act → Prop
  | .go mnode mstr => (s.pc t).preparing → (mallocs s.heap root mnode mstr).isSome
  | _ => True

instance (root : Addr) (s : State Tid) (t : Tid) : DecidablePred (Granted root s t)
  | .go mnode mstr =>
    inferInstanceAs (Decidable ((s.pc t).preparing → (mallocs s.heap root mnode mstr).isSome))
  | .get _ _ => isTrue trivial
  | .insert _ _ => isTrue trivial
  | .delete _ => isTrue trivial

section
variable [DecidableEq Tid]

/-- a `Cautious` step, with the memory that it asks for unless that may fail -/
def Supplied (root : Addr) (mayFail : Bool) (s : State Tid) (t : Tid) (act : Act) : Prop :=
  Cautious root s t act ∧ (mayFail = false → Granted root s t act)

instance [Fintype Tid] (root : Addr) (mayFail : Bool) (s : State Tid) (t : Tid) (act : Act) :
    Decidable (Supplied root mayFail s t act) := inferInstanceAs (Decidable (_ ∧ _))

/-- a step, and what is seen of it -/
def Visible (root : Addr) (P : State Tid → Tid → Act → Prop) (s : State Tid)
    (o : Option (Event Tid Update (Key × Val) Answer)) (s' : State Tid) : Prop :=
  ∃ t act, P s t act ∧ step root s t act = some s' ∧ o = event s t act

/-- what is seen of a schedule -/
def history (root : Addr) : State Tid → List (Tid × Act) → List (Event Tid Update (Key × Val) Answer)
  | _, [] => []
  | s, (t, act) :: l =>
    (event s t act).toList ++ (step root s t act).elim [] fun s' => history root s' l

theorem trace_of_steps {P : State Tid → Tid → Act → Prop} [∀ s t act, Decidable (P s t act)]
    {l : List (Tid × Act)} (h : steps root P s l = some s') :
    Trace (Visible root P) s (history root s l) s' := by
  induction l generalizing s with
  | nil =>
    cases h
    exact .refl
  | cons e l ih =>
    unfold steps at h
    split at h
    · rename_i hp
      obtain ⟨s₁, h₁, h₂⟩ := Option.bind_eq_some_iff.mp h
      unfold history
      rw [h₁]
      exact Trace.head ⟨e.1, e.2, hp, h₁, rfl⟩ (ih h₂)
    · cases h

end

/-! ## the relation -/

/-- what a deletion is going to return -/
def Cut.answer (c : Cut) : Answer := (if c.p = .null then 1 else 0, none)

/-- where a call is in the machine and at the object -/
def Pc.Shows (root : Addr) (s : State Tid) (T : Option MTree) :
    Pc → View Update (Key × Val) Answer → Prop
  | .idle, w => w = .idle
  | .getLock k out _, w => w = .called (.look (k, out))
  | .getHead k out _, w => w = .called (.look (k, out))
  | .getAt k out _ p, w => ∃ as, w = .looking (k, out) as ∧ Sight s.heap k out p as
  | .getUnlock _ ret, w => w = .done (shown ret)
  | .insEnter k v, w => w = .called (.upd (.insert k v))
  | .insPublish ret (some (slot, p)), w => ret = 0 ∧ ∃ k v, w = .called (.upd (.insert k v)) ∧
      ∃ new, Pledged root s T k v slot p new
  | .insPublish ret none, w => w = .done (ret, none)
  | .insUnlock ret, w => w = .done (ret, none)
  | .delEnter k, w => w = .called (.upd (.delete k))
  | .delSwapCur _ c _ _, w => w = .done c.answer
  | .delSwapPrev _ c _ _, w => w = .done c.answer
  | .delWait _ c _, w => w = .done c.answer
  | .delUnlock _ c, w => w = .done c.answer
  | .delRead _ _ _, w => w = .done (0, none)
  | .delCompare _ _ _ _, w => w = .done (0, none)
  | .delFree _ _ _ _, w => w = .done (0, none)
  | .delFreeNode _ _ _, w => w = .done (0, none)

/-- the machine and the object, at which lookups collect answers -/
structure Shared (root : Addr) (s : State Tid) (T : Option MTree)
    (w : Config Tid Map (View Update (Key × Val) Answer)) : Prop where
  inv : Inv root s T
  grace : Grace root s T
  state : w.state = valueOf T
  pc : ∀ t, (s.pc t).Shows root s T (w.pc t)

variable {w : Config Tid Map (View Update (Key × Val) Answer)}

/-! ## the other threads -/

/-- the thread is neither in a walk nor about to publish -/
theorem Pc.Shows.mono {pc : Pc} {x : View Update (Key × Val) Answer} (hs : pc.Shows root s T x)
    (hread : ∀ k out l p as, pc = .getAt k out l p → Sight s.heap k out p as →
      Sight s'.heap k out p as)
    (hpub : ∀ k v slot p new, Pledged root s T k v slot p new → Pledged root s' T' k v slot p new) :
    pc.Shows root s' T' x := by
  cases pc with
  | getAt k out l p =>
    obtain ⟨as, rfl, S⟩ := hs
    exact ⟨as, rfl, hread k out l p as rfl S⟩
  | insPublish ret o =>
    cases o with
    | none => exact hs
    | some e =>
      obtain ⟨hret, k, v, hx, new, hp⟩ := hs
      exact ⟨hret, k, v, hx, new, hpub k v e.1 e.2 new hp⟩
  | _ => exact hs

/-- the lookups see a new state of the map -/
theorem Pc.Shows.see {pc : Pc} {x : View Update (Key × Val) Answer} {m : Map}
    (hs : pc.Shows root s T x)
    (hread : ∀ k out l p as, pc = .getAt k out l p → Sight s.heap k out p as →
      Sight s'.heap k out p (insert (reply (m k) out) as))
    (hw : pc.writing = false) : pc.Shows root s' T' (x.see (mapObject mayFail) m) := by
  cases pc with
  | getAt k out l p =>
    obtain ⟨as, rfl, S⟩ := hs
    exact ⟨_, rfl, hread k out l p as rfl S⟩
  | insPublish ret o =>
    cases o with
    | none =>
      obtain rfl : x = .done (ret, none) := hs
      exact rfl
    | some e =>
      cases hw
  | _ =>
    obtain rfl := hs
    exact rfl

section
variable [DecidableEq Tid]

/-- **A step that is not seen at the object, or only its thread is.**  Blocks that others may be on or
that are not yet published stay as they are. -/
theorem Shared.quiet (H : Shared root s T w) {pc : Pc} {x : View Update (Key × Val) Answer}
    (hs : s'.pc = Function.update s.pc t pc) (I : Inv root s' T) (G : Grace root s' T)
    (hf : ∀ b, b ∈ s.heap → b ≠ root → (b ∈ (s.pc t).garbage → (s.pc t).awaits ≠ none) →
      s'.heap.lookup b = s.heap.lookup b)
    (hg : ∀ b ∈ pc.garbage, b ∈ (s.pc t).garbage)
    (hpc : pc.Shows root s' T x) : Shared root s' T (w.goto t x) := by
  refine ⟨I, G, H.state, fun t' => ?_⟩
  by_cases e : t' = t
  · subst e
    rw [hs, Function.update_self, Config.goto_self]
    exact hpc
  · rw [hs, Function.update_of_ne e, Config.goto_of_ne _ e]
    refine (H.pc t').mono (fun k out l p as e' S => S.frame fun b ho => ?_)
      fun k v slot p new P => P.quiet hs I.holds hf hg
    obtain ⟨h1, h2, h3⟩ := (H.grace.ahead t' k out l p e' b ho).apart H.inv t
    exact hf b h1 h2 h3

/-- **A step at which an update takes effect.** -/
theorem Shared.effect (H : Shared root s T w) {pc : Pc} {r : Answer} {m : Map}
    (hs : s'.pc = Function.update s.pc t pc) (I : Inv root s' T') (G : Grace root s' T')
    (hm : m = valueOf T')
    (hread : ∀ t' k out l p as, t' ≠ t → s.pc t' = .getAt k out l p → Sight s.heap k out p as →
      Sight s'.heap k out p (insert (reply (m k) out) as))
    (hw : (s.pc t).writing) (hpc : pc.Shows root s' T' (.done r)) :
    Shared root s' T' ((⟨m, fun t => (w.pc t).see (mapObject mayFail) m⟩ : Config ..).goto t
      (.done r)) := by
  refine ⟨I, G, hm, fun t' => ?_⟩
  by_cases e : t' = t
  · subst e
    rw [hs, Function.update_self, Config.goto_self]
    exact hpc
  · rw [hs, Function.update_of_ne e, Config.goto_of_ne _ e]
    refine (H.pc t').see (fun k out l p as e' S => hread t' k out l p as e e' S) ?_
    exact Bool.eq_false_iff.mpr (H.inv.alone hw e)

/-! ## every step -/

variable {o : Option (Event Tid Update (Key × Val) Answer)} {act : Act}

/-- a quiet step, and the one of the object, if there is one -/
theorem Shared.turn (H : Shared root s T w) {pc : Pc} {x : View Update (Key × Val) Answer}
    (hs : s'.pc = Function.update s.pc t pc) (I : Inv root s' T) (G : Grace root s' T)
    (hf : ∀ b, b ∈ s.heap → b ≠ root → (b ∈ (s.pc t).garbage → (s.pc t).awaits ≠ none) →
      s'.heap.lookup b = s.heap.lookup b)
    (hg : ∀ b ∈ pc.garbage, b ∈ (s.pc t).garbage) (hpc : pc.Shows root s' T x)
    (ho : Window (mapObject mayFail) w o (w.goto t x) ∨ o = none ∧ w.pc t = x) :
    ∃ w', Trace (Window (mapObject mayFail)) w o.toList w' ∧ ∃ T', Shared root s' T' w' := by
  refine ⟨w.goto t x, ?_, T, H.quiet hs I G hf hg hpc⟩
  rcases ho with ho | ⟨rfl, hx⟩
  · exact .single ho
  · rw [Config.goto_eq _ hx]
    exact .refl

/-- an update takes effect -/
theorem Shared.strike (H : Shared root s T w) {pc : Pc} {u : Update} {r : Answer} {m : Map}
    (hs : s'.pc = Function.update s.pc t pc) (I : Inv root s' T') (G : Grace root s' T')
    (hx : w.pc t = .called (.upd u)) (hu : (mapObject mayFail).upd u (valueOf T) r m)
    (hm : m = valueOf T')
    (hread : ∀ t' k out l p as, t' ≠ t → s.pc t' = .getAt k out l p → Sight s.heap k out p as →
      Sight s'.heap k out p (insert (reply (m k) out) as))
    (hw : (s.pc t).writing) (hpc : pc.Shows root s' T' (.done r)) :
    ∃ w', Trace (Window (mapObject mayFail)) w [] w' ∧ ∃ T', Shared root s' T' w' :=
  ⟨_, Trace.single (o := none) (.upd hx (H.state ▸ hu)), T', H.effect hs I G hm hread hw hpc⟩

/-- a call ends -/
theorem Shared.ends (H : Shared root s T w) {r : Answer} (hs : s'.pc = Function.update s.pc t .idle)
    (I : Inv root s' T) (G : Grace root s' T)
    (hf : ∀ b, b ∈ s.heap → b ≠ root → (b ∈ (s.pc t).garbage → (s.pc t).awaits ≠ none) →
      s'.heap.lookup b = s.heap.lookup b) (hx : w.pc t = .done r) (ho : o = some (.ret t r)) :
    ∃ w', Trace (Window (mapObject mayFail)) w o.toList w' ∧ ∃ T', Shared root s' T' w' := by
  subst ho
  exact H.turn hs I G hf nofun rfl (.inl (.ret hx))

/-- an insertion prepares its blocks, or fails -/
theorem Shared.prepare (H : Shared root s T w) {m n : Option Addr} {ret : Int} {h : Heap}
    {e : Option (Slot × Ptr)} (hpc : s.pc t = .insEnter k v)
    (he : insertPrepare s.heap root k.buf (int32 (strlen k)) v m n = .ok (ret, h, e))
    (hgr : mayFail = false → Granted root s t (.go m n))
    (S : Stepped root s (({ s with heap := h } : State Tid).goto t (.insPublish ret e)) t T T')
    (G : Grace root (({ s with heap := h } : State Tid).goto t (.insPublish ret e)) T') :
    ∃ w', Trace (Window (mapObject mayFail)) w [] w' ∧
      ∃ T', Shared root (({ s with heap := h } : State Tid).goto t (.insPublish ret e)) T' w' := by
  have hx : (s.pc t).Shows root s T (w.pc t) := H.pc t
  rw [hpc] at hx
  have hk : (Pc.insEnter k v).Ok s.heap s.frees := hpc ▸ H.inv.ok t
  have hS := S.inv.holds
  rcases insertPrepare_spec H.inv.holds hk v m n with ⟨e', hwhy⟩ | ⟨h₁, slot, q, T₁, new, e', P, -⟩
  · obtain ⟨rfl, e₂⟩ := Prod.mk.inj (Except.ok.inj (he.symm.trans e'))
    obtain ⟨rfl, rfl⟩ := Prod.mk.inj e₂
    obtain rfl : T' = T := hS.unique H.inv.holds
    -- it takes effect at once
    have hu : ∃ g, (g = false → mayFail = true) ∧ Map.insert (valueOf T') g k v = (1, valueOf T') := by
      by_cases hm : k ∈ keysOf T'
      · exact ⟨true, nofun, if_neg fun h1 => valueOf_eq_none.mp h1.1 hm⟩
      · refine ⟨false, fun _ => ?_, if_neg fun h1 => by cases h1.2⟩
        by_contra hf
        have h1 := hgr (Bool.eq_false_iff.mpr hf) (by rw [hpc]; rfl)
        rw [hwhy.resolve_left hm] at h1
        cases h1
    obtain ⟨g, hg, hins⟩ := hu
    refine H.strike (r := (1, none)) rfl S.inv G hx ⟨g, hg, ?_, rfl⟩ ?_
      (fun t' k' out l p as _ e S => S.grow _) (by rw [hpc]; rfl) rfl
    · rw [hins]
    · rw [hins]
  · obtain ⟨rfl, e₂⟩ := Prod.mk.inj (Except.ok.inj (he.symm.trans e'))
    obtain ⟨rfl, rfl⟩ := Prod.mk.inj e₂
    have hold : ∀ b ∈ s.heap, h.lookup b = s.heap.lookup b := fun b hb =>
      P.frame b fun h1 => P.fresh b h1 hb
    obtain rfl : T' = T := hS.unique (H.inv.holds.frame fun b hb => P.old H.inv.holds hb)
    refine H.turn (o := none) rfl S.inv G (fun b hb _ _ => hold b hb) nofun
      ⟨rfl, k, v, rfl, new, .of_prepared H.inv hk P rfl⟩ (.inr ⟨rfl, hx⟩)

/-- **The store of an insertion.** -/
theorem Shared.publish (H : Shared root s T w) {ret ret' : Int} {h : Heap} {e : Option (Slot × Ptr)}
    (hpc : s.pc t = .insPublish ret e) (he : Critbit.publish (ret, s.heap, e) = .ok (ret', h))
    (S : Stepped root s (({ s with heap := h } : State Tid).goto t (.insUnlock ret')) t T T')
    (G : Grace root (({ s with heap := h } : State Tid).goto t (.insUnlock ret')) T') :
    ∃ w', Trace (Window (mapObject mayFail)) w [] w' ∧
      ∃ T', Shared root (({ s with heap := h } : State Tid).goto t (.insUnlock ret')) T' w' := by
  have hx : (s.pc t).Shows root s T (w.pc t) := H.pc t
  rw [hpc] at hx
  have hS := S.inv.holds
  cases e with
  | none =>
    cases he
    obtain rfl : T' = T := hS.unique H.inv.holds
    exact H.turn (o := none) rfl S.inv G (fun b _ _ _ => rfl) nofun rfl (.inr ⟨rfl, hx⟩)
  | some e =>
    obtain ⟨slot, q⟩ := e
    obtain ⟨rfl, k, v, hx, new, h₀, T₁, hk, H₀, P, -⟩ := hx
    obtain ⟨h', hst, H'⟩ := P.publish H₀ hk
    have e' : Critbit.publish (0, s.heap, some (slot, q)) = .ok (0, h') := by
      show (s.heap.store slot q >>= fun h => pure (0, h)) = _
      rw [hst]
      rfl
    obtain ⟨rfl, rfl⟩ := Prod.mk.inj (Except.ok.inj (he.symm.trans e'))
    obtain rfl : T' = T₁ := hS.unique H'
    have hins : Map.insert (valueOf T) true k v = (0, valueOf T') := by
      rw [P.inserted.valueOf hk H₀.good]
      exact if_pos ⟨valueOf_eq_none.mpr (P.inserted.not_mem H₀.good), rfl⟩
    refine H.strike (r := (0, none)) rfl S.inv G hx ⟨true, nofun, by rw [hins], rfl⟩ (by rw [hins])
      (fun t' k' out l p as hne e S => ?_) (by rw [hpc]; rfl) rfl
    rw [show (Map.insert (valueOf T) true k v).2 = valueOf T' by rw [hins]]
    exact S.publish H₀ P hk hst fun c hc =>
      H.grace.ahead_tree H.inv (t := t) (by rw [hpc]; rfl) (by rw [hpc]; rfl) e hc

/-- **The critical section of a deletion.** -/
theorem Shared.unlink (H : Shared root s T w) {q : Ptr} {h : Heap} {l l' : RwLock}
    (hpc : s.pc t = .delEnter k)
    (e : critbitDeleteInplace s.heap root k.buf (int32 (strlen k)) = .ok (q, h)) {c : Cut}
    (hc : c.p = q)
    (S : Stepped root s (({ s with heap := h } : State Tid).goto t (.delSwapCur k c l l')) t T T')
    (G : Grace root (({ s with heap := h } : State Tid).goto t (.delSwapCur k c l l')) T') :
    ∃ w', Trace (Window (mapObject mayFail)) w [] w' ∧
      ∃ T', Shared root (({ s with heap := h } : State Tid).goto t (.delSwapCur k c l l')) T' w' := by
  have hx : (s.pc t).Shows root s T (w.pc t) := H.pc t
  rw [hpc] at hx
  have hS := S.inv.holds
  rcases deleteInplace_spec H.inv.holds k with ⟨hn, e'⟩ | ⟨q', h', T₁, old, e', U⟩
  · obtain ⟨rfl, rfl⟩ := Prod.mk.inj (Except.ok.inj (e.symm.trans e'))
    obtain rfl : T' = T := hS.unique H.inv.holds
    have hdel : Map.delete (valueOf T') k = (1, valueOf T') := if_pos (valueOf_eq_none.mpr hn)
    refine H.strike (r := (1, none)) rfl S.inv G hx ⟨by rw [hdel], rfl⟩ (by rw [hdel])
      (fun t' k' out l p as _ e S => S.grow _) (by rw [hpc]; rfl) ?_
    show View.done _ = .done c.answer
    unfold Cut.answer
    rw [if_pos hc]
  · obtain ⟨rfl, rfl⟩ := Prod.mk.inj (Except.ok.inj (e.symm.trans e'))
    obtain rfl : T' = T₁ := hS.unique U.holds
    have hdel : Map.delete (valueOf T) k = (0, valueOf T') := by
      rw [U.deleted.valueOf H.inv.holds.good]
      exact if_neg fun h1 => valueOf_eq_none.mp h1 U.deleted.mem
    refine H.strike (r := (0, none)) rfl S.inv G hx ⟨by rw [hdel], rfl⟩ (by rw [hdel])
      (fun t' k' out l p as hne e S => ?_) (by rw [hpc]; rfl) ?_
    · rw [show (Map.delete (valueOf T) k).2 = valueOf T' by rw [hdel]]
      exact S.unlink H.inv.holds U fun c hc =>
        H.grace.ahead_tree H.inv (t := t) (by rw [hpc]; rfl) (by rw [hpc]; rfl) e hc
    · show View.done _ = .done c.answer
      unfold Cut.answer
      rw [if_neg]
      rw [hc]
      obtain ⟨a, v, -, -, ⟨rfl, -⟩ | ⟨b, n, d, rfl, -⟩⟩ := U.blocks H.inv.holds
      · exact nofun
      · exact nofun

/-- a deletion gives `wlock` back: it ends here if it has found nothing -/
theorem Shared.delUnlock (H : Shared root s T w) {c : Cut} {m n : Option Addr}
    (hpc : s.pc t = .delUnlock k c)
    (S : Stepped root s (({ s with wlock := none } : State Tid).goto t (afterUnlock k c)) t T T)
    (G : Grace root (({ s with wlock := none } : State Tid).goto t (afterUnlock k c)) T) :
    ∃ w', Trace (Window (mapObject mayFail)) w (event s t (.go m n)).toList w' ∧
      ∃ T', Shared root (({ s with wlock := none } : State Tid).goto t (afterUnlock k c)) T' w' := by
  have hx : (s.pc t).Shows root s T (w.pc t) := H.pc t
  rw [hpc] at hx
  replace hx : w.pc t = .done (if c.p = .null then 1 else 0, none) := hx
  obtain ⟨-, -, hgb⟩ := afterUnlock_silent k c
  have hev : event s t (.go m n) = if c.p = .null then some (.ret t (1, none)) else none := by
    simp only [event, hpc]
  cases hp : c.p with
  | null =>
    rw [if_pos hp] at hx hev
    rw [show afterUnlock k c = .idle by unfold afterUnlock; rw [hp]] at S G ⊢
    exact H.ends rfl S.inv G (fun _ _ _ _ => rfl) hx hev
  | str a =>
    rw [if_neg (hp ▸ nofun)] at hx hev
    rw [show afterUnlock k c = .delFree k c (.str a) none by unfold afterUnlock; rw [hp]] at S G hgb ⊢
    exact H.turn rfl S.inv G (fun _ _ _ _ => rfl) (fun b hb => by rw [hpc]; exact hgb b hb) rfl (.inr ⟨hev, hx⟩)
  | node a =>
    rw [if_neg (hp ▸ nofun)] at hx hev
    rw [show afterUnlock k c = .delRead k c a by unfold afterUnlock; rw [hp]] at S G hgb ⊢
    exact H.turn rfl S.inv G (fun _ _ _ _ => rfl) (fun b hb => by rw [hpc]; exact hgb b hb) rfl (.inr ⟨hev, hx⟩)

/-- **One step.** -/
theorem Shared.step (H : Shared root s T w) (hv : Visible root (Supplied root mayFail) s o s') :
    ∃ w', Trace (Window (mapObject mayFail)) w o.toList w' ∧ ∃ T', Shared root s' T' w' := by
  obtain ⟨t, act, ⟨⟨hg, hu⟩, hgr⟩, hs, rfl⟩ := hv
  obtain ⟨T', S⟩ := H.inv.step hg hs
  have G := H.grace.step H.inv hu hs S
  have hx : (s.pc t).Shows root s T (w.pc t) := H.pc t
  have hquiet := H.inv.untouched hs S
  cases step_trans hs with
  | getCur hpc hr =>
    rw [hpc] at hx
    obtain ⟨rfl, hf⟩ := hquiet (by rw [hpc]; nofun) (by rw [hpc]; nofun)
    exact H.turn rfl S.inv G hf nofun rfl (.inl (.call _ hx))
  | rdlock hpc =>
    rw [hpc] at hx
    obtain ⟨rfl, hf⟩ := hquiet (by rw [hpc]; nofun) (by rw [hpc]; nofun)
    exact H.turn rfl S.inv G hf nofun rfl (.inr ⟨by simp only [event, hpc], hx⟩)
  | @head k out l p m n hpc hp =>
    rw [hpc] at hx
    obtain ⟨rfl, hf⟩ := hquiet (by rw [hpc]; nofun) (by rw [hpc]; nofun)
    obtain ⟨y, hy, hhead⟩ := H.inv.holds.record
    rw [Heap.load_head hy, hhead, Except.ok.injEq] at hp
    subst hp
    have hb : Window (mapObject mayFail) w none (w.goto t (.looking (k, out) {reply (w.state k) out})) :=
      .begin hx
    rw [H.state] at hb
    rw [show event s t (.go m n) = none by simp only [event, hpc]]
    exact H.turn rfl S.inv G hf nofun ⟨_, rfl, .head H.inv.holds k out⟩ (.inl hb)
  | @child k out l a x d m n hpc hn hd =>
    rw [hpc] at hx
    obtain ⟨as, hx, V⟩ := hx
    obtain ⟨rfl, hf⟩ := hquiet (by rw [hpc]; nofun) (by rw [hpc]; nofun)
    exact H.turn rfl S.inv G hf nofun ⟨as, rfl, V.child ⟨a, d, rfl, x, hn, hd, rfl⟩⟩
      (.inr ⟨by simp only [event, hpc], hx⟩)
  | @answer k out l p ret m n hpc hr =>
    rw [hpc] at hx
    obtain ⟨as, hx, V⟩ := hx
    obtain ⟨rfl, hf⟩ := hquiet (by rw [hpc]; nofun) (by rw [hpc]; nofun)
    rw [show event s t (.go m n) = none by simp only [event, hpc]]
    exact H.turn rfl S.inv G hf nofun rfl (.inl (.answer hx (V.answer hr)))
  | rdunlock hpc =>
    rw [hpc] at hx
    obtain ⟨rfl, hf⟩ := hquiet (by rw [hpc]; nofun) (by rw [hpc]; nofun)
    exact H.ends rfl S.inv G hf hx (by simp only [event, hpc])
  | insLock hpc hw =>
    rw [hpc] at hx
    obtain ⟨rfl, hf⟩ := hquiet (by rw [hpc]; nofun) (by rw [hpc]; nofun)
    exact H.turn rfl S.inv G hf nofun rfl (.inl (.call _ hx))
  | @prepare k v m n ret h e hpc he =>
    rw [show event s t (.go m n) = none by simp only [event, hpc]]
    exact H.prepare hpc he hgr S G
  | @publish ret ret' e h m n hpc he =>
    rw [show event s t (.go m n) = none by simp only [event, hpc]]
    exact H.publish hpc he S G
  | insUnlock hpc =>
    rw [hpc] at hx
    obtain ⟨rfl, hf⟩ := hquiet (by rw [hpc]; nofun) (by rw [hpc]; nofun)
    exact H.ends rfl S.inv G hf hx (by simp only [event, hpc])
  | delLock hpc hw =>
    rw [hpc] at hx
    obtain ⟨rfl, hf⟩ := hquiet (by rw [hpc]; nofun) (by rw [hpc]; nofun)
    exact H.turn rfl S.inv G hf nofun rfl (.inl (.call _ hx))
  | @unlink k q h r m n hpc he hr =>
    rw [show event s t (.go m n) = none by simp only [event, hpc]]
    exact H.unlink hpc he rfl S G
  | @delUnlock k c m n hpc =>
    rw [hpc] at hx
    obtain ⟨rfl, -⟩ := hquiet (by rw [hpc]; nofun) (by rw [hpc]; nofun)
    exact H.delUnlock hpc S G
  | @freeLeaf k c q e h m n hpc hfree =>
    rw [hpc] at hx
    obtain ⟨rfl, hf⟩ := hquiet (by rw [hpc]; nofun) (by rw [hpc]; nofun)
    obtain ⟨-, -, ⟨-, rfl⟩ | ⟨a, y, hp, rfl, -⟩⟩ : (Pc.delFree k c q e).Ok s.heap s.frees :=
      hpc ▸ H.inv.ok t
    · exact H.ends rfl S.inv G hf hx (by simp only [event, hpc])
    · refine H.turn rfl S.inv G hf (fun b hb => ?_) rfl (.inr ⟨by simp only [event, hpc], hx⟩)
      rw [hpc, List.mem_singleton.mp hb]
      exact mem_node_blocks hp
  | freeNode hpc hfree =>
    rw [hpc] at hx
    obtain ⟨rfl, hf⟩ := hquiet (by rw [hpc]; nofun) (by rw [hpc]; nofun)
    exact H.ends rfl S.inv G hf hx (by simp only [event, hpc])
  | swapCur hpc | swapPrev hpc | wait hpc | read hpc | compare hpc =>
    rw [hpc] at hx
    obtain ⟨rfl, hf⟩ := hquiet (by rw [hpc]; nofun) (by rw [hpc]; nofun)
    exact H.turn rfl S.inv G hf (fun b hb => by rw [hpc]; exact hb) rfl
      (.inr ⟨by simp only [event, hpc], hx⟩)

omit [DecidableEq Tid] in
theorem shared_start (root : Addr) :
    Shared root (start root : State Tid) none ⟨Map.empty, fun _ => .idle⟩ :=
  ⟨inv_start root, grace_start root, rfl, fun _ => rfl⟩

/-- **Every history is linearizable**: whatever the threads call and however their steps are interleaved,
what is seen of the calls is what is seen of a map at which each call takes effect at one moment between
its call and its return, and that map is what is in memory then.  The steps are `Supplied` ones. -/
theorem linearizable {l : List (Event Tid Update (Key × Val) Answer)}
    (h : Trace (Visible root (Supplied root mayFail)) (start root) l s) :
    ∃ c, Trace (Atomic (mapObject mayFail)) ⟨Map.empty, fun _ => .idle⟩ l c ∧
      ∀ k out, (∃ x, c.state x ≠ none) → critbitGet s.heap root k out = .ok (c.state.get k out) := by
  obtain ⟨w, hw, T, H⟩ :
      ∃ w, Trace (Window (mapObject mayFail)) ⟨Map.empty, fun _ => .idle⟩ l w ∧ ∃ T, Shared root s T w :=
    h.simulate (R := fun s w => ∃ T, Shared root s T w) (fun _ _ _ _ ⟨_, H⟩ hv => H.step hv)
      ⟨none, shared_start root⟩
  obtain ⟨c, hc, e⟩ := Window.trace_atomic hw
  refine ⟨c, hc, fun k out hb => ?_⟩
  rw [e, H.state] at hb ⊢
  obtain ⟨t, rfl⟩ := Option.ne_none_iff_exists'.mp (exists_bound.mp hb)
  exact critbitGet_tree H.inv.holds k out

end

/-- a lookup that answers what a deletion has taken out meanwhile -/
theorem linearizable_two : ∃ (l : List (Event Bool Update (Key × Val) Answer)) (s : State Bool)
    (c : Config Bool Map (Stage Update (Key × Val) Answer)),
    l = [.call false (.upd (.insert ⟨[97], by decide⟩ 1)), .ret false (0, none),
        .call true (.look (⟨[97], by decide⟩, 0)), .call false (.upd (.delete ⟨[97], by decide⟩)),
        .ret true (0, some 1), .ret false (0, none)] ∧
    Trace (Visible 0 (Supplied 0 false)) (start 0) l s ∧
    Trace (Atomic (mapObject false)) ⟨Map.empty, fun _ => .idle⟩ l c := by
  have hrun : ∃ sched, (steps 0 (Supplied 0 false) (start 0 : State Bool) sched).isSome ∧
      history 0 (start 0 : State Bool) sched =
      [.call false (.upd (.insert ⟨[97], by decide⟩ 1)), .ret false (0, none),
        .call true (.look (⟨[97], by decide⟩, 0)), .call false (.upd (.delete ⟨[97], by decide⟩)),
        .ret true (0, some 1), .ret false (0, none)] :=
    ⟨[(false, .insert ⟨[97], by decide⟩ 1), (false, .go none (some 1)), (false, .go none none),
        (false, .go none none), (true, .get ⟨[97], by decide⟩ 0), (true, .go none none),
        (true, .go none none), (false, .delete ⟨[97], by decide⟩), (false, .go none none),
        (true, .go none none), (true, .go none none), (false, .go none none), (false, .go none none),
        (false, .go none none), (false, .go none none), (false, .go none none)], by decide +kernel⟩
  obtain ⟨sched, hsome, hl⟩ := hrun
  obtain ⟨s, hs⟩ := Option.isSome_iff_exists.mp hsome
  have htr := trace_of_steps hs
  obtain ⟨c, hc, -⟩ := linearizable htr
  exact ⟨_, s, c, hl, htr, hc⟩

end Critbit

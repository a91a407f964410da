import Critbit.Run.Invariant
import Mathlib.Logic.Relation

/-!
# Threads that delete and insert again

The threads of `get_thread`: each of them, over and over, picks a key and looks it up, or deletes it and
inserts it again with the value that belongs to the key, without a look at the return values.  A `del`, an
`add` and a `find` are one step each; what a deletion does behind `wlock` is not told apart here.  A key
that is missing meanwhile is pending in some thread (`Covered`); when no thread is between its two calls,
nothing is missing (`reinsert_keeps`).
-/

namespace Critbit
open Crit CTree

/-- the heap, and for each thread the key it has deleted and not yet inserted again -/
structure Threads (Tid : Type) where
  heap : Heap
  pending : Tid → Option Key

section
variable {Tid : Type} [DecidableEq Tid]

inductive ThreadStep (root : Addr) (val : Key → Val) : Threads Tid → Threads Tid → Prop
  | del {s : Threads Tid} {t : Tid} {k : Key} {ret : Int} {h : Heap} (ht : s.pending t = none)
      (hk : Short k) (e : del s.heap root k = .ok (ret, h)) :
      ThreadStep root val s ⟨h, Function.update s.pending t (some k)⟩
  | add {s : Threads Tid} {t : Tid} {k : Key} {mnode mstr : Option Addr} {ret : Int} {h : Heap}
      (ht : s.pending t = some k) (hk : Short k)
      (hm : (mallocs s.heap root mnode mstr).isSome = true)
      (e : add s.heap root k (val k) mnode mstr = .ok (ret, h)) :
      ThreadStep root val s ⟨h, Function.update s.pending t none⟩
  /-- the rounds that only look a key up -/
  | find {s : Threads Tid} {t : Tid} {k : Key} {out : Val} (ht : s.pending t = none)
      (e : find s.heap root k = .ok out) : ThreadStep root val s s

abbrev ThreadRun (root : Addr) (val : Key → Val) : Threads Tid → Threads Tid → Prop :=
  Relation.ReflTransGen (ThreadStep root val)

/-- the deletions of `cleanup`; `none` is its `exit` when one of them fails -/
def cleanup (root : Addr) : Heap → List Key → M (Option Heap)
  | h, [] => pure (some h)
  | h, k :: ks => do
    let (ret, h) ← del h root k
    if ret ≠ 0 then pure none else cleanup root h ks

/-- every value is that of its key, and every key of `m₀` is bound or pending in some thread -/
structure Covered (val : Key → Val) (m₀ m : Map) (pending : Tid → Option Key) : Prop where
  value : ∀ k v, m k = some v → v = val k
  cover : ∀ k, m₀ k ≠ none → m k ≠ none ∨ ∃ t, pending t = some k

variable {val : Key → Val} {m₀ m : Map} {pending : Tid → Option Key} {root : Addr}

theorem Covered.delete (C : Covered val m₀ m pending) {t : Tid} (ht : pending t = none) (k : Key) :
    Covered val m₀ (m.delete k).2 (Function.update pending t (some k)) := by
  constructor
  · intro x v hv
    by_cases hx : x = k
    · rw [hx, Map.delete_self] at hv
      cases hv
    · exact C.value x v ((Map.delete_of_ne hx).symm.trans hv)
  · intro x hx
    by_cases e : x = k
    · exact .inr ⟨t, by rw [Function.update_self, e]⟩
    · rw [Map.delete_of_ne e]
      refine (C.cover x hx).imp id fun ⟨u, hu⟩ => ⟨u, ?_⟩
      -- the thread that waits with `x` is another one
      rwa [Function.update_of_ne fun e' => by rw [e', ht] at hu; cases hu]

theorem Covered.insert (C : Covered val m₀ m pending) {t : Tid} {k : Key}
    (ht : pending t = some k) :
    Covered val m₀ (m.insert true k (val k)).2 (Function.update pending t none) := by
  have hself : (m.insert true k (val k)).2 k = some (val k) := by
    rw [Map.insert_self]
    cases hk : m k with
    | none => rfl
    | some v => rw [Option.getD_some, C.value k v hk]
  constructor
  · intro x v hv
    by_cases hx : x = k
    · rw [hx, hself, Option.some.injEq] at hv
      rw [hx, hv]
    · exact C.value x v ((Map.insert_of_ne hx).symm.trans hv)
  · intro x hx
    by_cases e : x = k
    · rw [e, hself]
      exact .inl (Option.some_ne_none _)
    · rw [Map.insert_of_ne e]
      refine (C.cover x hx).imp id fun ⟨u, hu⟩ => ⟨u, ?_⟩
      rwa [Function.update_of_ne fun e' => by
        rw [e', ht, Option.some.injEq] at hu
        exact e hu.symm]

/-- what holds after every step of the threads -/
theorem covered_run {s₀ s : Threads Tid} (hr : Reached root s₀.heap m₀)
    (hv : ∀ k v, m₀ k = some v → v = val k) (hrun : ThreadRun root val s₀ s) :
    ∃ m, Reached root s.heap m ∧ Covered val m₀ m s.pending := by
  induction hrun with
  | refl => exact ⟨m₀, hr, hv, fun k hk => .inl hk⟩
  | tail _ hstep ih =>
    obtain ⟨m, hr', C⟩ := ih
    cases hstep with
    | del ht hk e => exact ⟨_, hr'.delete e, C.delete ht _⟩
    | add ht hk hm e =>
      have h1 := hr'.insert hk e
      rw [hm] at h1
      exact ⟨_, h1, C.insert ht⟩
    | find ht e => exact ⟨m, hr', C⟩

/-- a thread between two rounds can begin one on any key -/
theorem exists_del {h : Heap} (hr : Reached root h m) {t : Tid} (ht : pending t = none) {k : Key}
    (hk : Short k) :
    ∃ h', ThreadStep root val ⟨h, pending⟩ ⟨h', Function.update pending t (some k)⟩ := by
  obtain ⟨T, O, -⟩ := hr.owns
  obtain ⟨h', T', e, -⟩ := delete_spec O k
  exact ⟨h', .del ht hk e⟩

/-- a thread that has deleted a key can end its round -/
theorem exists_add {h : Heap} (hr : Reached root h m) {t : Tid} {k : Key} (ht : pending t = some k)
    (hk : Short k) : ∃ h', ThreadStep root val ⟨h, pending⟩ ⟨h', Function.update pending t none⟩ := by
  obtain ⟨T, O, -⟩ := hr.owns
  obtain ⟨mnode, mstr, hm⟩ := exists_granted O.toHolds
  obtain ⟨h', T', e, -⟩ := insert_spec O hk (val k) mnode mstr
  exact ⟨h', .add ht hk hm e⟩

/-- a bound key can be looked up -/
theorem exists_find {h : Heap} (hr : Reached root h m) {t : Tid} (ht : pending t = none) {k : Key}
    (hk : m k ≠ none) : ThreadStep root val ⟨h, pending⟩ ⟨h, pending⟩ := by
  obtain ⟨T, O, rfl⟩ := hr.owns
  obtain ⟨t', rfl⟩ := Option.ne_none_iff_exists'.mp (exists_bound.mp ⟨k, hk⟩)
  have e : find h root k = .ok (answer (valueOf (some t') k) 0).2 := by
    unfold find
    rw [critbitGet_tree O.toHolds]
    rfl
  exact .find ht e

/-- two rounds on one key that overlap: the second thread deletes in vain, and the first one inserts in
vain -/
theorem exists_overlap {h : Heap} (hr : Reached root h m) (hv : ∀ k v, m k = some v → v = val k) {t u : Tid}
    (htu : t ≠ u) {k : Key} (hk : Short k) : ∃ h₁ h₂ h₃ h₄ p₁ p₂,
    ThreadStep root val ⟨h, fun _ => none⟩ ⟨h₁, p₁⟩ ∧ ThreadStep root val ⟨h₁, p₁⟩ ⟨h₂, p₂⟩ ∧
      p₂ t = some k ∧ p₂ u = some k ∧ ThreadStep root val ⟨h₂, p₂⟩ ⟨h₃, p₁⟩ ∧
      ThreadStep root val ⟨h₃, p₁⟩ ⟨h₄, fun _ => none⟩ := by
  set p₁ : Tid → Option Key := Function.update (fun _ => none) t (some k) with hp₁
  set p₂ := Function.update p₁ u (some k) with hp₂
  have ht : p₁ t = some k := Function.update_self ..
  have hu : p₁ u = none := Function.update_of_ne htu.symm ..
  have hback : Function.update p₂ u none = p₁ := by
    rw [hp₂, Function.update_idem, ← hu, Function.update_eq_self]
  have hidle : Function.update p₁ t none = fun _ => none := by
    rw [hp₁, Function.update_idem]
    exact Function.update_eq_self ..
  obtain ⟨h₁, s₁⟩ : ∃ h₁, ThreadStep root val ⟨h, fun _ => none⟩ ⟨h₁, p₁⟩ := exists_del hr rfl hk
  obtain ⟨m₁, hr₁, -⟩ := covered_run hr hv (.single s₁)
  obtain ⟨h₂, s₂⟩ : ∃ h₂, ThreadStep root val ⟨h₁, p₁⟩ ⟨h₂, p₂⟩ := exists_del hr₁ hu hk
  obtain ⟨m₂, hr₂, -⟩ := covered_run hr hv (.tail (.single s₁) s₂)
  obtain ⟨h₃, s₃⟩ : ∃ h₃, ThreadStep root val ⟨h₂, p₂⟩ ⟨h₃, p₁⟩ :=
    hback ▸ exists_add hr₂ (t := u) (Function.update_self ..) hk
  obtain ⟨m₃, hr₃, -⟩ := covered_run hr hv (.tail (.tail (.single s₁) s₂) s₃)
  obtain ⟨h₄, s₄⟩ : ∃ h₄, ThreadStep root val ⟨h₃, p₁⟩ ⟨h₄, fun _ => none⟩ := hidle ▸ exists_add hr₃ ht hk
  exact ⟨h₁, h₂, h₃, h₄, p₁, p₂, s₁, s₂, (Function.update_of_ne htu ..).trans ht,
    Function.update_self .., s₃, s₄⟩

/-- deletions of different bound keys all succeed -/
theorem cleanup_ok {h : Heap} (hr : Reached root h m) {ks : List Key} (hn : ks.Nodup)
    (hb : ∀ k ∈ ks, m k ≠ none) : ∃ h', cleanup root h ks = .ok (some h') := by
  induction ks generalizing h m with
  | nil => exact ⟨h, rfl⟩
  | cons k ks ih =>
    obtain ⟨T, O, rfl⟩ := hr.owns
    obtain ⟨h₁, T', e, O', hT'⟩ := delete_spec O k
    have hk := hb k List.mem_cons_self
    have e' : critbitDelete h root k = .ok (0, h₁) := by
      rw [e, Map.delete, if_neg hk]
    obtain ⟨hkn, hn'⟩ := List.nodup_cons.mp hn
    obtain ⟨h', e₂⟩ := ih (hr.delete e') hn' fun x hx => by
      have hne : x ≠ k := fun e1 => hkn (e1 ▸ hx)
      rw [Map.delete_of_ne hne]
      exact hb x (List.mem_cons_of_mem _ hx)
    refine ⟨h', ?_⟩
    show (critbitDelete h root k >>= _) = _
    rw [e', ok_bind]
    exact e₂

/-- a bound key is in one leaf, with its value -/
theorem bound_leaf {h : Heap} (hr : Reached root h m) {k : Key} {v : Val} (hk : m k = some v) :
    ∃ r a, h.root root = .ok r ∧ Below h r.head (.str a) ∧ h.str (.str a) = .ok ⟨v, Key.buf k⟩ ∧
      ∀ b w, Below h r.head (.str b) → h.str (.str b) = .ok ⟨w, Key.buf k⟩ → b = a := by
  obtain ⟨T, O, rfl⟩ := hr.owns
  obtain ⟨x, hx, hp⟩ := O.record
  cases T with
  | none => cases hk
  | some t =>
    have hrep := O.rep t rfl
    have hp' : x.head = ptr t := hp
    obtain ⟨l, hl, e⟩ := List.mem_map.mp ((valueOf_eq_some O.good).mp hk)
    have hblock := Heap.str_ok (hrep.leaf hl)
    rw [e] at hblock
    refine ⟨x, l.1, Heap.root_ok hx, by rw [hp']; exact below_leaf hrep hl, hblock, ?_⟩
    rw [hp']
    intro b w hb hw
    exact (critbitTree_of_rep hrep (O.good t rfl)).unique b l.1 k w v hb (below_leaf hrep hl) hw
      hblock

/-- **No key is lost**: when all threads are done, every key bound at the start is bound to its value,
in one leaf, and the deletions of `cleanup` succeed for any list of them without repetitions. -/
theorem reinsert_keeps {h₀ : Heap} {s : Threads Tid} (hr : Reached root h₀ m₀)
    (hv : ∀ k v, m₀ k = some v → v = val k)
    (hrun : ThreadRun root val ⟨h₀, fun _ => none⟩ s) (hdone : ∀ t, s.pending t = none) :
    (∀ k v, m₀ k = some v → (∀ out, critbitGet s.heap root k out = .ok (0, v)) ∧
      ∃ r a, s.heap.root root = .ok r ∧ Below s.heap r.head (.str a) ∧
        s.heap.str (.str a) = .ok ⟨v, Key.buf k⟩ ∧
        ∀ b w, Below s.heap r.head (.str b) → s.heap.str (.str b) = .ok ⟨w, Key.buf k⟩ → b = a) ∧
    ∀ ks : List Key, ks.Nodup → (∀ k ∈ ks, m₀ k ≠ none) →
      ∃ h', cleanup root s.heap ks = .ok (some h') := by
  obtain ⟨m, hr', C⟩ := covered_run hr hv hrun
  have hbound : ∀ k, m₀ k ≠ none → m k ≠ none := by
    intro k hk
    refine (C.cover k hk).resolve_right ?_
    rintro ⟨t, ht⟩
    rw [hdone t] at ht
    cases ht
  refine ⟨fun k v hk => ?_, fun ks hn hks => cleanup_ok hr' hn fun k hk => hbound k (hks k hk)⟩
  have hm : m k = some v := by
    obtain ⟨w, hw⟩ := Option.ne_none_iff_exists'.mp (hbound k (by rw [hk]; exact Option.some_ne_none v))
    rw [hw, C.value k w hw, hv k v hk]
  refine ⟨fun out => ?_, bound_leaf hr' hm⟩
  obtain ⟨T, O, rfl⟩ := hr'.owns
  obtain ⟨t, rfl⟩ := Option.ne_none_iff_exists'.mp
    (exists_bound.mp ⟨k, by rw [hm]; exact Option.some_ne_none v⟩)
  rw [critbitGet_tree O.toHolds, hm]
  rfl

end

/-- two threads, one round each on the same key, and a lookup -/
theorem reinsert_keeps_two : ∃ (m : Map) (h₀ h₁ h₂ h₃ h₄ h' : Heap) (p₁ p₂ : Bool → Option Key),
    m = bindAll Map.empty [(⟨[97], by decide⟩, 5), (⟨[97, 98], by decide⟩, 6)] ∧ Reached 0 h₀ m ∧
    ThreadStep 0 (fun k => (m k).getD 0) ⟨h₀, fun _ => none⟩ ⟨h₁, p₁⟩ ∧
    ThreadStep 0 (fun k => (m k).getD 0) ⟨h₁, p₁⟩ ⟨h₂, p₂⟩ ∧
    ThreadStep 0 (fun k => (m k).getD 0) ⟨h₂, p₂⟩ ⟨h₃, p₁⟩ ∧
    ThreadStep 0 (fun k => (m k).getD 0) ⟨h₃, p₁⟩ ⟨h₄, fun _ => none⟩ ∧
    ThreadStep 0 (fun k => (m k).getD 0) (⟨h₄, fun _ => none⟩ : Threads Bool) ⟨h₄, fun _ => none⟩ ∧
    p₂ true = some ⟨[97], by decide⟩ ∧ p₂ false = some ⟨[97], by decide⟩ ∧
    critbitGet h₄ 0 ⟨[97], by decide⟩ 0 = .ok (0, 5) ∧
    cleanup 0 h₄ [⟨[97, 98], by decide⟩, ⟨[97], by decide⟩] = .ok (some h') := by
  obtain ⟨h, hr⟩ := reached_two
  set m := bindAll Map.empty [(⟨[97], by decide⟩, 5), (⟨[97, 98], by decide⟩, 6)] with hm
  have hv : ∀ k v, m k = some v → v = (m k).getD 0 := fun k v hk => by rw [hk]; rfl
  obtain ⟨h₁, h₂, h₃, h₄, p₁, p₂, s₁, s₂, ht, hu, s₃, s₄⟩ :=
    exists_overlap hr hv (t := true) (u := false) (by decide) (k := ⟨[97], by decide⟩) (by decide)
  have hrun := (((Relation.ReflTransGen.single s₁).tail s₂).tail s₃).tail s₄
  obtain ⟨hkeep, hc⟩ := reinsert_keeps hr hv hrun fun _ => rfl
  obtain ⟨h', e⟩ := hc [⟨[97, 98], by decide⟩, ⟨[97], by decide⟩] (by decide) (by decide)
  obtain ⟨m₄, hr₄, C⟩ := covered_run hr hv hrun
  have hb : m₄ ⟨[97], by decide⟩ ≠ none :=
    (C.cover ⟨[97], by decide⟩ (by decide)).resolve_right fun ⟨t, ht⟩ => by cases ht
  exact ⟨m, h, h₁, h₂, h₃, h₄, h', p₁, p₂, rfl, hr, s₁, s₂, s₃, s₄, exists_find hr₄ (t := true) rfl hb,
    ht, hu, (hkeep ⟨[97], by decide⟩ 5 (by decide)).1 0, e⟩

end Critbit

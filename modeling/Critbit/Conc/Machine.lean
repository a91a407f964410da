import Critbit.Run.Refine
import Critbit.Conc.Walk

/-!
# Threads that look up, insert and delete on one root

`step` is the interleaving semantics: a thread makes one load, one store, or one operation on a lock at
a time, under sequential consistency.  What holds `wlock` is serialised, so an insertion prepares its
blocks in one step and publishes them in another, and the walk of a deletion and its store are one
step.  The wait for the old lock is one step too, possible while no reader holds that lock.  Behind
`wlock` a deletion reads the unlinked node, compares, and frees, one step each.

`step_trans` is the inversion of `step`: all that a step can do.
-/

namespace Critbit

/-! ## states -/

/-- What `critbit_delete_inplace` has returned.  The other two fields are notes that the code does not
take: the leaf that has been unlinked, and how many blocks had been freed by then. -/
structure Cut where
  p : Ptr
  leaf : Addr
  mark : Nat
deriving DecidableEq

/-- the unlinked blocks -/
def Cut.blocks (c : Cut) : List Addr :=
  match c.p with
  | .null => []
  | .str _ => [c.leaf]
  | .node a => [c.leaf, a]

/-- where a thread is in its call, with its local variables -/
inductive Pc where
  | idle
  /-- it has loaded `cur_rwlock` -/
  | getLock (k : Key) (out : Val) (lock : RwLock)
  /-- it holds the lock -/
  | getHead (k : Key) (out : Val) (lock : RwLock)
  /-- it has loaded `p` -/
  | getAt (k : Key) (out : Val) (lock : RwLock) (p : Ptr)
  | getUnlock (lock : RwLock) (ret : Int × Val)
  /-- it holds `wlock` -/
  | insEnter (k : Key) (v : Val)
  | insPublish (ret : Int) (w : Option (Slot × Ptr))
  | insUnlock (ret : Int)
  /-- it holds `wlock` -/
  | delEnter (k : Key)
  | delSwapCur (k : Key) (c : Cut) (lock newlock : RwLock)
  | delSwapPrev (k : Key) (c : Cut) (lock newlock : RwLock)
  | delWait (k : Key) (c : Cut) (lock : RwLock)
  | delUnlock (k : Key) (c : Cut)
  /-- `wlock` is free for others -/
  | delRead (k : Key) (c : Cut) (a : Addr)
  | delCompare (k : Key) (c : Cut) (a : Addr) (n : Node)
  | delFree (k : Key) (c : Cut) (leaf : Ptr) (node : Option Addr)
  | delFreeNode (k : Key) (c : Cut) (a : Addr)
deriving DecidableEq

/-- `held` has the readers of each lock; `frees` is a note of all blocks freed so far, in order -/
structure State (Tid : Type) where
  heap : Heap
  wlock : Option Tid
  held : RwLock → Finset Tid
  pc : Tid → Pc
  frees : List Addr

/-- a thread begins a call, or goes on with the one it is in; `mnode` and `mstr` are the outcomes of
the `malloc`s if it comes to them -/
inductive Act where
  | get (k : Key) (out : Val)
  | insert (k : Key) (v : Val)
  | delete (k : Key)
  | go (mnode mstr : Option Addr)

section
variable {Tid : Type} [DecidableEq Tid]

/-- a new root and idle threads -/
def start (root : Addr) : State Tid := ⟨newHeap root, none, fun _ => ∅, fun _ => .idle, []⟩

def State.goto (s : State Tid) (t : Tid) (pc : Pc) : State Tid :=
  { s with pc := Function.update s.pc t pc }

/-- the leaf that the walk of `k` finds -/
def nearestLeaf (h : Heap) (root : Addr) (k : Key) : Addr :=
  match h.load (.head root) >>= fun p => findNearest h p k.buf (sizeT (int32 (strlen k))) with
  | .ok (.str a) => a
  | _ => 0

/-- a deletion behind `wlock` -/
def afterUnlock (k : Key) (c : Cut) : Pc :=
  match c.p with
  | .null => .idle
  | .str a => .delFree k c (.str a) none
  | .node a => .delRead k c a

/-- a deletion that has freed the leaf -/
def afterFree (k : Key) (c : Cut) : Option Addr → Pc
  | none => .idle
  | some a => .delFreeNode k c a

/-! ## steps -/

def step (root : Addr) (s : State Tid) (t : Tid) (act : Act) : Option (State Tid) :=
  match s.pc t, act with
  | .idle, .get k out => do
    let r ← (s.heap.root root).toOption
    pure (s.goto t (.getLock k out r.cur))
  | .getLock k out lock, .go _ _ =>
    let s := { s with held := Function.update s.held lock (insert t (s.held lock)) }
    pure (s.goto t (.getHead k out lock))
  | .getHead k out lock, .go _ _ => do
    let p ← (s.heap.load (.head root)).toOption
    pure (s.goto t (.getAt k out lock p))
  | .getAt k out lock (.node a), .go _ _ => do
    let n ← (s.heap.node a).toOption
    let dir ← (getDirection n k.buf (sizeT (int32 (strlen k)))).toOption
    pure (s.goto t (.getAt k out lock (n.child dir)))
  | .getAt k out lock p, .go _ _ => do
    let ret ← (getResult s.heap p k.buf out).toOption
    pure (s.goto t (.getUnlock lock ret))
  | .getUnlock lock _, .go _ _ =>
    let s := { s with held := Function.update s.held lock ((s.held lock).erase t) }
    pure (s.goto t .idle)
  | .idle, .insert k v =>
    if s.wlock = none then pure ({ s with wlock := some t }.goto t (.insEnter k v)) else none
  | .insEnter k v, .go mnode mstr => do
    let (ret, h, w) ←
      (insertPrepare s.heap root k.buf (int32 (strlen k)) v mnode mstr).toOption
    pure ({ s with heap := h }.goto t (.insPublish ret w))
  | .insPublish ret w, .go _ _ => do
    let (ret, h) ← (publish (ret, s.heap, w)).toOption
    pure ({ s with heap := h }.goto t (.insUnlock ret))
  | .insUnlock _, .go _ _ => pure ({ s with wlock := none }.goto t .idle)
  | .idle, .delete k =>
    if s.wlock = none then pure ({ s with wlock := some t }.goto t (.delEnter k)) else none
  | .delEnter k, .go _ _ => do
    let (p, h) ← (critbitDeleteInplace s.heap root k.buf (int32 (strlen k))).toOption
    let r ← (h.root root).toOption
    let c := ⟨p, nearestLeaf s.heap root k, s.frees.length⟩
    pure ({ s with heap := h }.goto t (.delSwapCur k c r.cur r.prev))
  | .delSwapCur k c lock newlock, .go _ _ => do
    let h ← (casCur s.heap root lock newlock).toOption
    pure ({ s with heap := h }.goto t (.delSwapPrev k c lock newlock))
  | .delSwapPrev k c lock newlock, .go _ _ => do
    let h ← (casPrev s.heap root newlock lock).toOption
    pure ({ s with heap := h }.goto t (.delWait k c lock))
  | .delWait k c lock, .go _ _ =>
    if s.held lock = ∅ then pure (s.goto t (.delUnlock k c)) else none
  | .delUnlock k c, .go _ _ => pure ({ s with wlock := none }.goto t (afterUnlock k c))
  | .delRead k c a, .go _ _ => do
    let n ← (s.heap.node a).toOption
    pure (s.goto t (.delCompare k c a n))
  | .delCompare k c a n, .go _ _ => do
    let leaf ← (victim s.heap k.buf n).toOption
    pure (s.goto t (.delFree k c leaf (some a)))
  | .delFree k c leaf node, .go _ _ => do
    let h ← (freeString s.heap leaf).toOption
    pure ({ s with heap := h, frees := s.frees ++ leaf.block.toList }.goto t (afterFree k c node))
  | .delFreeNode _ _ a, .go _ _ => do
    let h ← (s.heap.free a).toOption
    pure ({ s with heap := h, frees := s.frees ++ [a] }.goto t .idle)
  | _, _ => none

/-- the runs whose steps all meet `P`, a condition on the state before the step -/
def Run (root : Addr) (P : State Tid → Tid → Act → Prop) : State Tid → State Tid → Prop :=
  Relation.ReflTransGen fun s s' => ∃ t act, P s t act ∧ step root s t act = some s'

section
variable (root : Addr) (P : State Tid → Tid → Act → Prop) [∀ s t act, Decidable (P s t act)]

/-- a schedule, from one state on, as far as its steps meet `P` -/
def steps : State Tid → List (Tid × Act) → Option (State Tid)
  | s, [] => some s
  | s, (t, act) :: l => if P s t act then do
      let s ← step root s t act
      steps s l
    else none

end

theorem run_of_steps {root : Addr} {P : State Tid → Tid → Act → Prop}
    [∀ s t act, Decidable (P s t act)] {s s' : State Tid} {l : List (Tid × Act)}
    (h : steps root P s l = some s') : Run root P s s' := by
  induction l generalizing s with
  | nil =>
    cases h
    exact .refl
  | cons e l ih =>
    unfold steps at h
    split at h
    · rename_i hp
      obtain ⟨s₁, h₁, h₂⟩ := Option.bind_eq_some_iff.mp h
      exact .head ⟨e.1, e.2, hp, h₁⟩ (ih h₂)
    · cases h

/-! ## what a step can do -/

inductive Trans (root : Addr) (s : State Tid) (t : Tid) : Act → State Tid → Prop
  | getCur {k : Key} {out : Val} {r : Root} (hpc : s.pc t = .idle)
      (hr : s.heap.root root = .ok r) :
      Trans root s t (.get k out) (s.goto t (.getLock k out r.cur))
  | rdlock {k : Key} {out : Val} {l : RwLock} {m n : Option Addr}
      (hpc : s.pc t = .getLock k out l) :
      Trans root s t (.go m n)
        ({ s with held := Function.update s.held l (insert t (s.held l)) }.goto t (.getHead k out l))
  | head {k : Key} {out : Val} {l : RwLock} {p : Ptr} {m n : Option Addr}
      (hpc : s.pc t = .getHead k out l) (hp : s.heap.load (.head root) = .ok p) :
      Trans root s t (.go m n) (s.goto t (.getAt k out l p))
  | child {k : Key} {out : Val} {l : RwLock} {a : Addr} {x : Node} {d : Bool}
      {m n : Option Addr} (hpc : s.pc t = .getAt k out l (.node a)) (hn : s.heap.node a = .ok x)
      (hd : getDirection x k.buf (sizeT (int32 (strlen k))) = .ok d) :
      Trans root s t (.go m n) (s.goto t (.getAt k out l (x.child d)))
  | answer {k : Key} {out : Val} {l : RwLock} {p : Ptr} {ret : Int × Val} {m n : Option Addr}
      (hpc : s.pc t = .getAt k out l p) (hr : getResult s.heap p k.buf out = .ok ret) :
      Trans root s t (.go m n) (s.goto t (.getUnlock l ret))
  | rdunlock {l : RwLock} {ret : Int × Val} {m n : Option Addr}
      (hpc : s.pc t = .getUnlock l ret) :
      Trans root s t (.go m n)
        ({ s with held := Function.update s.held l ((s.held l).erase t) }.goto t .idle)
  | insLock {k : Key} {v : Val} (hpc : s.pc t = .idle) (hw : s.wlock = none) :
      Trans root s t (.insert k v) ({ s with wlock := some t }.goto t (.insEnter k v))
  | prepare {k : Key} {v : Val} {m n : Option Addr} {ret : Int} {h : Heap}
      {w : Option (Slot × Ptr)} (hpc : s.pc t = .insEnter k v)
      (e : insertPrepare s.heap root k.buf (int32 (strlen k)) v m n = .ok (ret, h, w)) :
      Trans root s t (.go m n) ({ s with heap := h }.goto t (.insPublish ret w))
  | publish {ret ret' : Int} {w : Option (Slot × Ptr)} {h : Heap} {m n : Option Addr}
      (hpc : s.pc t = .insPublish ret w) (e : publish (ret, s.heap, w) = .ok (ret', h)) :
      Trans root s t (.go m n) ({ s with heap := h }.goto t (.insUnlock ret'))
  | insUnlock {ret : Int} {m n : Option Addr} (hpc : s.pc t = .insUnlock ret) :
      Trans root s t (.go m n) ({ s with wlock := none }.goto t .idle)
  | delLock {k : Key} (hpc : s.pc t = .idle) (hw : s.wlock = none) :
      Trans root s t (.delete k) ({ s with wlock := some t }.goto t (.delEnter k))
  | unlink {k : Key} {p : Ptr} {h : Heap} {r : Root} {m n : Option Addr}
      (hpc : s.pc t = .delEnter k)
      (e : critbitDeleteInplace s.heap root k.buf (int32 (strlen k)) = .ok (p, h))
      (hr : h.root root = .ok r) :
      Trans root s t (.go m n) ({ s with heap := h }.goto t (.delSwapCur k
        ⟨p, nearestLeaf s.heap root k, s.frees.length⟩ r.cur r.prev))
  | swapCur {k : Key} {c : Cut} {l l' : RwLock} {h : Heap} {m n : Option Addr}
      (hpc : s.pc t = .delSwapCur k c l l') (e : casCur s.heap root l l' = .ok h) :
      Trans root s t (.go m n) ({ s with heap := h }.goto t (.delSwapPrev k c l l'))
  | swapPrev {k : Key} {c : Cut} {l l' : RwLock} {h : Heap} {m n : Option Addr}
      (hpc : s.pc t = .delSwapPrev k c l l') (e : casPrev s.heap root l' l = .ok h) :
      Trans root s t (.go m n) ({ s with heap := h }.goto t (.delWait k c l))
  | wait {k : Key} {c : Cut} {l : RwLock} {m n : Option Addr} (hpc : s.pc t = .delWait k c l)
      (hl : s.held l = ∅) : Trans root s t (.go m n) (s.goto t (.delUnlock k c))
  | delUnlock {k : Key} {c : Cut} {m n : Option Addr} (hpc : s.pc t = .delUnlock k c) :
      Trans root s t (.go m n) ({ s with wlock := none }.goto t (afterUnlock k c))
  | read {k : Key} {c : Cut} {a : Addr} {x : Node} {m n : Option Addr}
      (hpc : s.pc t = .delRead k c a) (hn : s.heap.node a = .ok x) :
      Trans root s t (.go m n) (s.goto t (.delCompare k c a x))
  | compare {k : Key} {c : Cut} {a : Addr} {x : Node} {p : Ptr} {m n : Option Addr}
      (hpc : s.pc t = .delCompare k c a x) (e : victim s.heap k.buf x = .ok p) :
      Trans root s t (.go m n) (s.goto t (.delFree k c p (some a)))
  | freeLeaf {k : Key} {c : Cut} {p : Ptr} {w : Option Addr} {h : Heap} {m n : Option Addr}
      (hpc : s.pc t = .delFree k c p w) (e : freeString s.heap p = .ok h) :
      Trans root s t (.go m n)
        ({ s with heap := h, frees := s.frees ++ p.block.toList }.goto t (afterFree k c w))
  | freeNode {k : Key} {c : Cut} {a : Addr} {h : Heap} {m n : Option Addr}
      (hpc : s.pc t = .delFreeNode k c a) (e : s.heap.free a = .ok h) :
      Trans root s t (.go m n) ({ s with heap := h, frees := s.frees ++ [a] }.goto t .idle)

theorem toOption_some {α : Type} {x : M α} {a : α} (h : x.toOption = some a) : x = .ok a := by
  cases x with
  | error e => cases h
  | ok b => cases h; rfl

/-- a computation of the code inside a step -/
theorem toOption_bind {α β : Type} {x : M α} {f : α → Option β} {b : β}
    (h : (x.toOption >>= f) = some b) : ∃ a, x = .ok a ∧ f a = some b := by
  obtain ⟨a, ha, hf⟩ := Option.bind_eq_some_iff.mp h
  exact ⟨a, toOption_some ha, hf⟩

/-- **The inversion of `step`.** -/
theorem step_trans {root : Addr} {s s' : State Tid} {t : Tid} {act : Act}
    (h : step root s t act = some s') : Trans root s t act s' := by
  unfold step at h
  split at h
  · rename_i hpc
    obtain ⟨r, hr, h⟩ := toOption_bind h
    cases h
    exact .getCur hpc hr
  · rename_i hpc
    cases h
    exact .rdlock hpc
  · rename_i hpc
    obtain ⟨p, hp, h⟩ := toOption_bind h
    cases h
    exact .head hpc hp
  · rename_i hpc
    obtain ⟨x, hx, h⟩ := toOption_bind h
    obtain ⟨d, hd, h⟩ := toOption_bind h
    cases h
    exact .child hpc hx hd
  · rename_i hpc
    obtain ⟨r, hr, h⟩ := toOption_bind h
    cases h
    exact .answer hpc hr
  · rename_i hpc
    cases h
    exact .rdunlock hpc
  · rename_i hpc
    split at h
    · rename_i hw
      cases h
      exact .insLock hpc hw
    · cases h
  · rename_i hpc
    obtain ⟨r, hr, h⟩ := toOption_bind h
    cases h
    exact .prepare hpc hr
  · rename_i hpc
    obtain ⟨r, hr, h⟩ := toOption_bind h
    cases h
    exact .publish hpc hr
  · rename_i hpc
    cases h
    exact .insUnlock hpc
  · rename_i hpc
    split at h
    · rename_i hw
      cases h
      exact .delLock hpc hw
    · cases h
  · rename_i hpc
    obtain ⟨p, hp, h⟩ := toOption_bind h
    obtain ⟨r, hr, h⟩ := toOption_bind h
    cases h
    exact .unlink hpc hp hr
  · rename_i hpc
    obtain ⟨g, hg, h⟩ := toOption_bind h
    cases h
    exact .swapCur hpc hg
  · rename_i hpc
    obtain ⟨g, hg, h⟩ := toOption_bind h
    cases h
    exact .swapPrev hpc hg
  · rename_i hpc
    split at h
    · rename_i hl
      cases h
      exact .wait hpc hl
    · cases h
  · rename_i hpc
    cases h
    exact .delUnlock hpc
  · rename_i hpc
    obtain ⟨x, hx, h⟩ := toOption_bind h
    cases h
    exact .read hpc hx
  · rename_i hpc
    obtain ⟨p, hp, h⟩ := toOption_bind h
    cases h
    exact .compare hpc hp
  · rename_i hpc
    obtain ⟨g, hg, h⟩ := toOption_bind h
    cases h
    exact .freeLeaf hpc hg
  · rename_i hpc
    obtain ⟨g, hg, h⟩ := toOption_bind h
    cases h
    exact .freeNode hpc hg
  · cases h

end

end Critbit

import Critbit.Memory.Lookup
import Mathlib.Data.Fintype.EquivFin

/-!
# The tree as a map

The purpose of the tree, as a machine of its own: a `Map` binds keys to values, an insertion binds a
key that is not bound (if it gets its memory), a deletion unbinds one that is, a lookup answers what
is bound.

* `exec_spec`          one call of the code does what the same call does to the map;
* `calls_refine_map`   so do all calls of a run, one after another;
* `Reached`            the states that insertions and deletions lead to, each next to its map;
                       `Reached.owns` is what holds in all of them.
-/

namespace Critbit

/-! ## maps -/

abbrev Map := Key → Option Val

namespace Map

def empty : Map := fun _ => none

/-- `granted`: no `malloc` of the insertion fails -/
def insert (m : Map) (granted : Bool) (k : Key) (v : Val) : Int × Map :=
  if m k = none ∧ granted then (0, Function.update m k (some v)) else (1, m)

def delete (m : Map) (k : Key) : Int × Map :=
  if m k = none then (1, m) else (0, Function.update m k none)

/-- the return value and `*out` -/
def get (m : Map) (k : Key) (out : Val) : Int × Val := answer (m k) out

variable {m : Map} {k x : Key}

theorem delete_self (m : Map) (k : Key) : (m.delete k).2 k = none := by
  unfold delete
  split
  · assumption
  · exact Function.update_self _ _ _

theorem delete_of_ne (hx : x ≠ k) : (m.delete k).2 x = m x := by
  unfold delete
  split
  · rfl
  · exact Function.update_of_ne hx _ _

theorem insert_self (m : Map) (k : Key) (v : Val) :
    (m.insert true k v).2 k = some ((m k).getD v) := by
  unfold insert
  cases hk : m k with
  | none => rw [if_pos ⟨rfl, rfl⟩]; exact Function.update_self _ _ _
  | some w => rw [if_neg fun h => Option.some_ne_none w h.1]; exact hk

theorem insert_of_ne {g : Bool} {v : Val} (hx : x ≠ k) : (m.insert g k v).2 x = m x := by
  unfold insert
  split
  · exact Function.update_of_ne hx _ _
  · rfl

end Map

/-! ## calls -/

inductive Call where
  | insert (k : Key) (v : Val) (mnode mstr : Option Addr)
  | delete (k : Key)
  | get (k : Key) (out : Val)

/-- what the caller sees: the return value and, after a lookup, `*out` -/
abbrev Answer := Int × Option Val

namespace Call

def key : Call → Key
  | insert k _ _ _ => k
  | delete k => k
  | get k _ => k

/-- the call on the code -/
def exec (h : Heap) (root : Addr) : Call → M (Answer × Heap)
  | insert k v mnode mstr => do
    let (ret, h) ← critbitInsert h root k v mnode mstr
    pure ((ret, none), h)
  | delete k => do
    let (ret, h) ← critbitDelete h root k
    pure ((ret, none), h)
  | get k out => do
    let (ret, out) ← critbitGet h root k out
    pure ((ret, some out), h)

/-- whether all `malloc`s of the call succeed -/
def granted (h : Heap) (root : Addr) : Call → Bool
  | insert _ _ mnode mstr => (mallocs h root mnode mstr).isSome
  | _ => true

/-- the call on a map -/
def onMap (granted : Bool) (m : Map) : Call → Answer × Map
  | insert k v _ _ => (((m.insert granted k v).1, none), (m.insert granted k v).2)
  | delete k => (((m.delete k).1, none), (m.delete k).2)
  | get k out => (((m.get k out).1, some (m.get k out).2), m)

/-- a lookup is issued only while some key is stored -/
def Allowed (m : Map) : Call → Prop
  | get _ _ => ∃ x, m x ≠ none
  | _ => True

end Call

/-- The calls, made one after another from `h`, answer as they do on the map `m`, as long as each of
them is allowed. -/
def Conforms (root : Addr) : Heap → Map → List Call → Prop
  | _, _, [] => True
  | h, m, c :: cs => c.Allowed m → ∃ h',
      c.exec h root = .ok ((c.onMap (c.granted h root) m).1, h') ∧
      Conforms root h' (c.onMap (c.granted h root) m).2 cs

/-! ## one call -/

section
variable {h : Heap} {root : Addr} {T : Option MTree}

theorem insert_spec (O : Owns h root T) {k : Key} (hk : Short k) (v : Val)
    (mnode mstr : Option Addr) : ∃ h' T',
      critbitInsert h root k v mnode mstr =
        .ok ((Map.insert (valueOf T) (mallocs h root mnode mstr).isSome k v).1, h') ∧
      Owns h' root T' ∧
      valueOf T' = (Map.insert (valueOf T) (mallocs h root mnode mstr).isSome k v).2 := by
  unfold Map.insert
  rcases critbitInsert_owns O hk v mnode mstr with ⟨e, hc⟩ | ⟨h', T', new, e, hi, O', hm⟩
  · have hno : ¬ (valueOf T k = none ∧ (mallocs h root mnode mstr).isSome = true) := by
      rintro ⟨h1, h2⟩
      rcases hc with hc | hc
      · exact valueOf_eq_none.mp h1 hc
      · rw [hc] at h2; cases h2
    rw [if_neg hno]
    exact ⟨h, T, e, O, rfl⟩
  · rw [if_pos ⟨valueOf_eq_none.mpr (hi.not_mem O.good), by rw [hm]; rfl⟩]
    exact ⟨h', T', e, O', hi.valueOf hk O.good⟩

theorem delete_spec (O : Owns h root T) (k : Key) : ∃ h' T',
    critbitDelete h root k = .ok ((Map.delete (valueOf T) k).1, h') ∧ Owns h' root T' ∧
      valueOf T' = (Map.delete (valueOf T) k).2 := by
  unfold Map.delete
  rcases critbitDelete_owns O k with ⟨hn, h', e, O', -⟩ | ⟨h', T', old, e, D, O', -⟩
  · rw [if_pos (valueOf_eq_none.mpr hn)]
    exact ⟨h', T, e, O', rfl⟩
  · rw [if_neg fun h1 => valueOf_eq_none.mp h1 D.mem]
    exact ⟨h', T', e, O', D.valueOf O.good⟩

/-- some key is bound exactly if there is a tree -/
theorem exists_bound : (∃ x, valueOf T x ≠ none) ↔ T ≠ none := by
  cases T with
  | none => exact ⟨fun ⟨x, hx⟩ => absurd rfl hx, fun hT => absurd rfl hT⟩
  | some t =>
    obtain ⟨x, hx⟩ := Crit.CTree.exists_key t
    exact iff_of_true ⟨x, fun e => valueOf_eq_none.mp e hx⟩ (by simp)

/-- **One call.** -/
theorem exec_spec (O : Owns h root T) (c : Call) (hk : Short c.key) (hc : c.Allowed (valueOf T)) :
    ∃ h' T', c.exec h root = .ok ((c.onMap (c.granted h root) (valueOf T)).1, h') ∧
      Owns h' root T' ∧ valueOf T' = (c.onMap (c.granted h root) (valueOf T)).2 := by
  cases c with
  | insert k v mnode mstr =>
    obtain ⟨h', T', e, O', hv⟩ := insert_spec O (k := k) hk v mnode mstr
    refine ⟨h', T', ?_, O', hv⟩
    show (critbitInsert h root k v mnode mstr >>= _) = _
    rw [e]
    rfl
  | delete k =>
    obtain ⟨h', T', e, O', hv⟩ := delete_spec O k
    refine ⟨h', T', ?_, O', hv⟩
    show (critbitDelete h root k >>= _) = _
    rw [e]
    rfl
  | get k out =>
    obtain ⟨t, rfl⟩ := Option.ne_none_iff_exists'.mp (exists_bound.mp hc)
    refine ⟨h, some t, ?_, O, rfl⟩
    show (critbitGet h root k out >>= _) = _
    rw [critbitGet_tree O.toHolds]
    rfl

/-- **All calls of a run.** -/
theorem conforms_of_owns (O : Owns h root T) (cs : List Call) (hk : ∀ c ∈ cs, Short c.key) :
    Conforms root h (valueOf T) cs := by
  induction cs generalizing h T with
  | nil => exact trivial
  | cons c cs ih =>
    intro hc
    obtain ⟨h', T', e, O', hv⟩ := exec_spec O c (hk c List.mem_cons_self) hc
    refine ⟨h', e, ?_⟩
    rw [← hv]
    exact ih O' fun d hd => hk d (List.mem_cons_of_mem _ hd)

end

/-- **The tree is a map**: every sequence of calls on a new root, with keys that are not too long,
gets the answers of the empty map, whatever the `malloc`s do. -/
theorem calls_refine_map {o : Option Addr} {root : Addr} {h : Heap}
    (e : critbitNew ∅ o = .ok (root, h)) (cs : List Call) (hk : ∀ c ∈ cs, Short c.key) :
    Conforms root h Map.empty cs :=
  conforms_of_owns (critbitNew_owns e) cs hk

theorem calls_refine_map_three : ∃ h, critbitNew ∅ (some 0) = .ok (0, h) ∧
    Conforms 0 h Map.empty [.insert ⟨[97], by decide⟩ 5 none (some 1), .get ⟨[97], by decide⟩ 0,
      .delete ⟨[97], by decide⟩] :=
  ⟨_, rfl, calls_refine_map (o := some 0) rfl _ (by decide)⟩

/-! ## reachable states -/

/-- The states that insertions and deletions lead to from a new root, next to the map that the same
calls lead to. -/
inductive Reached (root : Addr) : Heap → Map → Prop
  | new {o : Option Addr} {h : Heap} (e : critbitNew ∅ o = .ok (root, h)) :
      Reached root h Map.empty
  | insert {h h' : Heap} {m : Map} {k : Key} {v : Val} {mnode mstr : Option Addr} {ret : Int}
      (hr : Reached root h m) (hk : Short k)
      (e : critbitInsert h root k v mnode mstr = .ok (ret, h')) :
      Reached root h' (m.insert (mallocs h root mnode mstr).isSome k v).2
  | delete {h h' : Heap} {m : Map} {k : Key} {ret : Int} (hr : Reached root h m)
      (e : critbitDelete h root k = .ok (ret, h')) : Reached root h' (m.delete k).2

/-- **What holds in every reachable state**: the heap is the root record and one good tree, and the
tree stands for the map. -/
theorem Reached.owns {root : Addr} {h : Heap} {m : Map} (hr : Reached root h m) :
    ∃ T, Owns h root T ∧ valueOf T = m := by
  induction hr with
  | new e => exact ⟨none, critbitNew_owns e, rfl⟩
  | @insert h h' m k v mnode mstr ret hr hk e ih =>
    obtain ⟨T, O, rfl⟩ := ih
    obtain ⟨h₂, T', e', O', hv⟩ := insert_spec O hk v mnode mstr
    obtain ⟨-, rfl⟩ := Prod.mk.inj (Except.ok.inj (e.symm.trans e'))
    exact ⟨T', O', hv⟩
  | @delete h h' m k ret hr e ih =>
    obtain ⟨T, O, rfl⟩ := ih
    obtain ⟨h₂, T', e', O', hv⟩ := delete_spec O k
    obtain ⟨-, rfl⟩ := Prod.mk.inj (Except.ok.inj (e.symm.trans e'))
    exact ⟨T', O', hv⟩

/-! ## states with given bindings -/

/-- there are addresses with which no `malloc` fails -/
theorem exists_granted {h : Heap} {root : Addr} {T : Option MTree} (H : Holds h root T) :
    ∃ mnode mstr, (mallocs h root mnode mstr).isSome = true := by
  obtain ⟨a, ha⟩ := Infinite.exists_notMem_finset h.keys
  obtain ⟨b, hb⟩ := Infinite.exists_notMem_finset (Finmap.keys (h.insert a (.raw 24)))
  rw [Finmap.mem_keys] at ha hb
  have hbh : b ∉ h := fun e => hb (Finmap.mem_insert.mpr (.inr e))
  refine ⟨some a, some b, ?_⟩
  cases T with
  | none => rw [mallocs_empty H, Heap.grant_fresh hbh]; rfl
  | some t => rw [mallocs_tree H, Heap.grant_fresh ha, Option.bind_some, Heap.grant_fresh hb]; rfl

/-- the bindings of a list, put into a map one after another; the first one of a key counts -/
def bindAll (m : Map) (l : List (Key × Val)) : Map := l.foldl (fun m b => (m.insert true b.1 b.2).2) m

/-- **Every finite map is the map of a reachable state.** -/
theorem reached_bindAll {root : Addr} {h : Heap} {m : Map} (hr : Reached root h m)
    (l : List (Key × Val)) (hl : ∀ b ∈ l, Short b.1) : ∃ h', Reached root h' (bindAll m l) := by
  induction l generalizing h m with
  | nil => exact ⟨h, hr⟩
  | cons b l ih =>
    obtain ⟨T, O, rfl⟩ := hr.owns
    obtain ⟨mnode, mstr, hm⟩ := exists_granted O.toHolds
    have hb := hl b List.mem_cons_self
    obtain ⟨h', T', e, -, -⟩ := insert_spec O hb b.2 mnode mstr
    have hr' := Reached.insert hr hb e
    rw [hm] at hr'
    exact ih hr' fun c hc => hl c (List.mem_cons_of_mem _ hc)

/-- the heap of a new root -/
def newHeap (root : Addr) : Heap :=
  Finmap.insert root (.root ⟨.null, .left, .right⟩) (Finmap.insert root (.raw 176) ∅)

theorem critbitNew_fresh (root : Addr) : critbitNew ∅ (some root) = .ok (root, newHeap root) := by
  unfold critbitNew
  rw [Heap.malloc_some (Heap.grant_fresh Finmap.notMem_empty)]
  rfl

/-- two keys, one the beginning of the other -/
theorem reached_two : ∃ h, Reached 0 h
    (bindAll Map.empty [(⟨[97], by decide⟩, 5), (⟨[97, 98], by decide⟩, 6)]) := by
  exact reached_bindAll (.new (critbitNew_fresh 0)) _ (by decide)

end Critbit

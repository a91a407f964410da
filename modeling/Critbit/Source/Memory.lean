import Critbit.Source.Bytes
import Mathlib.Data.Finmap

/-!
# Memory: tagged pointers, blocks, `malloc` and `free`

The heap maps the address of each live block to its content.  A block is the root record, an
internal node, or a string block: the value and, behind it, the characters of the key.  `malloc`
takes the outcome of the call from outside: `some a` is the address it returns, `none` is failure.
An address that is in use is never returned, whatever the outcome says, so that every outcome is
one that `malloc` may have.

* `Ptr`                      a `void *` of the tree; the constructor is the tag in its lowest bit
                             (`Ptr.word`);
* `Slot`                     a `void **`: the field of the root record or of a node;
* `Fault`                    what a run of the code can do wrong; a fault ends the run;
* `Heap.load`, `Heap.store`  through a slot; `Heap.node`, `Heap.str`, `Heap.root` read a block.
-/

namespace Critbit

/-! ## machine integers -/

/-- conversion to `int` -/
def int32 (n : Int) : Int := (n + 2147483648) % 4294967296 - 2147483648

/-- conversion to `uint32_t` -/
def uint32 (n : Int) : Nat := (n % 4294967296).toNat

/-- conversion to `size_t` -/
def sizeT (n : Int) : Nat := (n % 18446744073709551616).toNat

theorem int32_of_lt {n : Nat} (h : n < 2147483648) : int32 n = n := by unfold int32; omega
theorem uint32_of_lt {n : Nat} (h : n < 4294967296) : uint32 n = n := by unfold uint32; omega
theorem sizeT_of_lt {n : Nat} (h : n < 18446744073709551616) : sizeT n = n := by unfold sizeT; omega

/-- `int` and `uint32_t` narrow a length alike -/
theorem uint32_int32 (n : Nat) : uint32 (int32 n) = n % 4294967296 := by
  unfold uint32 int32
  omega

/-! ## pointers and blocks -/

/-- the name of a block -/
abbrev Addr := Nat

/-- a stored `const void *` -/
abbrev Val := UInt64

/-- A pointer as the tree keeps it: `NULL`, the characters of a string block, or a node with the
tag bit set.  `IS_INTERNAL` asks for the last, `FROM_NODE` is `node`, and `TO_NODE` takes it off. -/
inductive Ptr where
  | null
  | str (a : Addr)
  | node (a : Addr)
deriving DecidableEq

/-- the machine word of a pointer: blocks start at multiples of 16, the characters of a string
block are 8 bytes further, and a node is tagged in its lowest bit -/
def Ptr.word : Ptr → Nat
  | null => 0
  | str a => 16 * (a + 1) + 8
  | node a => 16 * (a + 1) + 1

theorem Ptr.word_internal (p : Ptr) : p.word % 2 = 1 ↔ ∃ a, p = node a := by
  cases p with
  | null => simp [word]
  | str a => simp [word, Nat.add_mod, Nat.mul_mod]
  | node a => simp [word, Nat.add_mod, Nat.mul_mod]

theorem Ptr.word_inj {p q : Ptr} (h : p.word = q.word) : p = q := by
  have inj : ∀ a b : Nat, 16 * (a + 1) = 16 * (b + 1) → a = b := by omega
  cases p <;> cases q <;> simp only [word] at h
  case null.null => rfl
  case str.str a b => exact congrArg str (inj a b (by omega))
  case node.node a b => exact congrArg node (inj a b (by omega))
  all_goals exfalso; omega

/-- which of the two read-write locks of a root -/
inductive RwLock where
  | left
  | right
deriving DecidableEq

/-- `struct critbit_root`, less the states of its locks -/
structure Root where
  head : Ptr
  cur : RwLock
  prev : RwLock
deriving DecidableEq

/-- `struct critbit_node` -/
structure Node where
  child : Bool → Ptr
  byte : Int
  otherbits : UInt8
deriving DecidableEq

/-- a string block: the value, then the characters copied from the key -/
structure Str where
  value : Val
  chars : List UInt8
deriving DecidableEq

inductive Block where
  | root (r : Root)
  | node (n : Node)
  | str (s : Str)
  | raw (size : Nat)
deriving DecidableEq

inductive Fault where
  /-- `NULL` used as a string or a node -/
  | null
  /-- a pointer to the wrong kind of block -/
  | wild
  /-- a block that is not allocated -/
  | dead
  /-- an access past the end of a string or a block -/
  | bounds
  /-- overflow of a signed addition -/
  | overflow
  /-- a loop that comes back to a node it has left -/
  | diverge
deriving DecidableEq

abbrev M := Except Fault

@[simp] theorem ok_bind {α β : Type} (x : α) (f : α → M β) : (Except.ok x >>= f) = f x := rfl
@[simp] theorem pure_ok {α : Type} (x : α) : (pure x : M α) = .ok x := rfl

/-- what a run that comes to an end has computed first -/
theorem ok_of_bind {α β : Type} {x : M α} {f : α → M β} {r : β} (e : (x >>= f) = .ok r) :
    ∃ a, x = .ok a ∧ f a = .ok r := by
  cases x with
  | error err => cases e
  | ok a => exact ⟨a, rfl, e⟩

/-- a field that holds a pointer of the tree -/
inductive Slot where
  | head (r : Addr)
  | child (a : Addr) (d : Bool)
deriving DecidableEq

/-- the block that a slot lies in -/
def Slot.addr : Slot → Addr
  | head r => r
  | child a _ => a

abbrev Heap := Finmap fun _ : Addr => Block

namespace Heap

def root (h : Heap) (r : Addr) : M Root :=
  match h.lookup r with
  | some (.root x) => pure x
  | some _ => .error .wild
  | none => .error .dead

def node (h : Heap) (a : Addr) : M Node :=
  match h.lookup a with
  | some (.node n) => pure n
  | some _ => .error .wild
  | none => .error .dead

/-- the string block whose characters `p` points to -/
def str (h : Heap) : Ptr → M Str
  | .null => .error .null
  | .node _ => .error .wild
  | .str a =>
    match h.lookup a with
    | some (.str s) => pure s
    | some _ => .error .wild
    | none => .error .dead

def load (h : Heap) : Slot → M Ptr
  | .head r => do
    let x ← h.root r
    pure x.head
  | .child a d => do
    let n ← h.node a
    pure (n.child d)

def store (h : Heap) (s : Slot) (p : Ptr) : M Heap :=
  match s with
  | .head r => do
    let x ← h.root r
    pure (h.insert r (.root { x with head := p }))
  | .child a d => do
    let n ← h.node a
    pure (h.insert a (.node { n with child := Function.update n.child d p }))

/-- the block that `malloc` returns when its outcome is `o`: never one that is live -/
def grant (h : Heap) : Option Addr → Option Addr
  | none => none
  | some a => if a ∈ h then none else some a

/-- `malloc`; `none` is `NULL` -/
def malloc (h : Heap) (o : Option Addr) (size : Nat) : Option (Addr × Heap) :=
  (h.grant o).map fun a => (a, h.insert a (.raw size))

def free (h : Heap) (a : Addr) : M Heap :=
  if a ∈ h then pure (h.erase a) else .error .dead

/-- the number of live blocks; a walk that meets more nodes comes back to one of them -/
def size (h : Heap) : Nat := h.keys.card

/-! ## reading and writing -/

theorem root_ok {h : Heap} {r : Addr} {x : Root} (hr : h.lookup r = some (.root x)) :
    h.root r = .ok x := by
  unfold root; rw [hr]; rfl

theorem node_ok {h : Heap} {a : Addr} {n : Node} (ha : h.lookup a = some (.node n)) :
    h.node a = .ok n := by
  unfold node; rw [ha]; rfl

theorem str_ok {h : Heap} {a : Addr} {s : Str} (ha : h.lookup a = some (.str s)) :
    h.str (.str a) = .ok s := by
  unfold str; simp only [ha]; rfl

theorem root_inv {h : Heap} {r : Addr} {x : Root} (hr : h.root r = .ok x) :
    h.lookup r = some (.root x) := by
  unfold root at hr
  split at hr
  · rename_i e
    rw [e]; cases hr; rfl
  · cases hr
  · cases hr

theorem node_inv {h : Heap} {a : Addr} {n : Node} (ha : h.node a = .ok n) :
    h.lookup a = some (.node n) := by
  unfold node at ha
  split at ha
  · rename_i e
    rw [e]; cases ha; rfl
  · cases ha
  · cases ha

theorem str_inv {h : Heap} {p : Ptr} {s : Str} (hp : h.str p = .ok s) :
    ∃ a, p = .str a ∧ h.lookup a = some (.str s) := by
  cases p with
  | null => cases hp
  | node a => cases hp
  | str a =>
    unfold str at hp
    simp only at hp
    split at hp
    · rename_i e
      exact ⟨a, rfl, by rw [e]; cases hp; rfl⟩
    · cases hp
    · cases hp

theorem load_head {h : Heap} {r : Addr} {x : Root} (hr : h.lookup r = some (.root x)) :
    h.load (.head r) = .ok x.head := by
  show (h.root r >>= fun x => pure x.head) = _
  rw [root_ok hr]; rfl

theorem load_child {h : Heap} {a : Addr} {n : Node} (ha : h.lookup a = some (.node n)) (d : Bool) :
    h.load (.child a d) = .ok (n.child d) := by
  show (h.node a >>= fun n => pure (n.child d)) = _
  rw [node_ok ha]; rfl

theorem store_head {h : Heap} {r : Addr} {x : Root} (hr : h.lookup r = some (.root x)) (p : Ptr) :
    h.store (.head r) p = .ok (h.insert r (.root { x with head := p })) := by
  show (h.root r >>= fun x => pure (h.insert r (.root { x with head := p }))) = _
  rw [root_ok hr]; rfl

theorem store_child {h : Heap} {a : Addr} {n : Node} (ha : h.lookup a = some (.node n)) (d : Bool)
    (p : Ptr) : h.store (.child a d) p =
      .ok (h.insert a (.node { n with child := Function.update n.child d p })) := by
  unfold store
  simp only [node_ok ha, ok_bind, pure_ok]

/-- a store writes the block of its slot and no other -/
theorem store_frame {h h' : Heap} {s : Slot} {p : Ptr} (hs : h.store s p = .ok h') {b : Addr}
    (hb : b ≠ s.addr) : h'.lookup b = h.lookup b := by
  cases s with
  | head r =>
    cases hx : h.root r with
    | error e =>
      rw [store, hx] at hs
      cases hs
    | ok x =>
      rw [store_head (root_inv hx)] at hs
      cases hs
      exact Finmap.lookup_insert_of_ne _ hb
  | child a d =>
    cases hx : h.node a with
    | error e =>
      rw [store, hx] at hs
      cases hs
    | ok n =>
      rw [store_child (node_inv hx)] at hs
      cases hs
      exact Finmap.lookup_insert_of_ne _ hb

/-- a store makes no string block -/
theorem store_str_inv {h h' : Heap} {s : Slot} {p : Ptr} (hs : h.store s p = .ok h') {b : Addr} {y : Str}
    (hb : h'.lookup b = some (.str y)) : h.lookup b = some (.str y) := by
  by_cases e : b = s.addr
  · subst e
    cases s with
    | head r =>
      obtain ⟨x, hx, -⟩ := ok_of_bind hs
      rw [store_head (root_inv hx)] at hs
      cases hs
      cases (Finmap.lookup_insert _).symm.trans hb
    | child a d =>
      obtain ⟨n, hn, -⟩ := ok_of_bind hs
      rw [store_child (node_inv hn)] at hs
      cases hs
      cases (Finmap.lookup_insert _).symm.trans hb
  · rwa [store_frame hs e] at hb

/-- a store neither allocates nor frees -/
theorem store_mem {h h' : Heap} {s : Slot} {p : Ptr} (hs : h.store s p = .ok h') {b : Addr} :
    b ∈ h' ↔ b ∈ h := by
  by_cases hb : b = s.addr
  · subst hb
    cases s with
    | head r =>
      cases hx : h.root r with
      | error e => rw [store, hx] at hs; cases hs
      | ok x =>
        rw [store_head (root_inv hx)] at hs
        cases hs
        exact iff_of_true (Finmap.mem_insert.mpr (.inl rfl))
          (Finmap.mem_iff.mpr ⟨_, root_inv hx⟩)
    | child a d =>
      cases hx : h.node a with
      | error e => rw [store, hx] at hs; cases hs
      | ok n =>
        rw [store_child (node_inv hx)] at hs
        cases hs
        exact iff_of_true (Finmap.mem_insert.mpr (.inl rfl))
          (Finmap.mem_iff.mpr ⟨_, node_inv hx⟩)
  · rw [Finmap.mem_iff, store_frame hs hb, ← Finmap.mem_iff (s := h)]

theorem grant_some {h : Heap} {o : Option Addr} {a : Addr} (hg : h.grant o = some a) :
    o = some a ∧ a ∉ h := by
  cases o with
  | none => cases hg
  | some b =>
    by_cases hb : b ∈ h
    · rw [grant, if_pos hb] at hg
      cases hg
    · rw [grant, if_neg hb] at hg
      cases hg
      exact ⟨rfl, hb⟩

theorem grant_fresh {h : Heap} {a : Addr} (ha : a ∉ h) : h.grant (some a) = some a := if_neg ha

theorem malloc_none {h : Heap} {o : Option Addr} (hg : h.grant o = none) (size : Nat) :
    h.malloc o size = none := by
  unfold malloc; rw [hg]; rfl

theorem malloc_some {h : Heap} {o : Option Addr} {a : Addr} (hg : h.grant o = some a)
    (size : Nat) : h.malloc o size = some (a, h.insert a (.raw size)) := by
  unfold malloc; rw [hg]; rfl

theorem free_ok {h : Heap} {a : Addr} (ha : a ∈ h) : h.free a = .ok (h.erase a) := if_pos ha

/-- freeing the block just allocated gives the heap back -/
theorem erase_insert {h : Heap} {a : Addr} (ha : a ∉ h) (b : Block) : (h.insert a b).erase a = h := by
  refine Finmap.ext_lookup fun c => ?_
  by_cases e : c = a
  · subst e
    rw [Finmap.lookup_erase, Finmap.lookup_eq_none.mpr ha]
  · rw [Finmap.lookup_erase_ne e, Finmap.lookup_insert_of_ne _ e]

theorem mem_of_lookup {h : Heap} {a : Addr} {b : Block} (ha : h.lookup a = some b) : a ∈ h :=
  Finmap.mem_iff.mpr ⟨b, ha⟩

end Heap

/-- reading `s[i]` -/
def readAt (s : List UInt8) (i : Int) : M UInt8 :=
  if i < 0 then .error .bounds
  else
    match s[i.toNat]? with
    | some c => pure c
    | none => .error .bounds

theorem readAt_buf {k : Key} {i : Nat} (hi : i ≤ strlen k) : readAt k.buf i = .ok (k.byteAt i) := by
  have h0 : ¬ (i : Int) < 0 := by omega
  unfold readAt
  rw [if_neg h0, Int.toNat_natCast, Key.buf_get hi]
  rfl

/-- `strcmp` up to its sign: the difference of the first two characters that differ -/
def strcmp : List UInt8 → List UInt8 → M Int
  | a :: as, b :: bs =>
    if a ≠ b then pure ((a.toNat : Int) - b.toNat)
    else if a = 0 then pure 0
    else strcmp as bs
  | _, _ => .error .bounds

/-- one round of `strcmp` -/
theorem strcmp_cons (a b : UInt8) (as bs : List UInt8) : strcmp (a :: as) (b :: bs) =
    if a ≠ b then .ok ((a.toNat : Int) - b.toNat) else if a = 0 then .ok 0 else strcmp as bs := rfl

theorem strcmp_self (k : Key) : strcmp k.buf k.buf = .ok 0 := by
  suffices h : ∀ as : List UInt8, strcmp (as ++ [0]) (as ++ [0]) = .ok 0 from h k.bytes
  intro as
  induction as with
  | nil => rfl
  | cons a as ih =>
    rw [List.cons_append, strcmp_cons, if_neg (not_not.mpr rfl), ih, ite_self]

/-- **`strcmp` finds the first differing byte**, the terminator counting as a zero. -/
theorem strcmp_firstByte {x y : Key} {b : Nat} (h : ∀ j < b, x.byteAt j = y.byteAt j)
    (hb : x.byteAt b ≠ y.byteAt b) :
    strcmp x.buf y.buf = .ok (((x.byteAt b).toNat : Int) - (y.byteAt b).toNat) := by
  suffices hs : ∀ as bs : List UInt8, (0 : UInt8) ∉ as → (0 : UInt8) ∉ bs →
      (∀ j < b, as.getD j 0 = bs.getD j 0) → as.getD b 0 ≠ bs.getD b 0 →
      strcmp (as ++ [0]) (bs ++ [0]) = .ok (((as.getD b 0).toNat : Int) - (bs.getD b 0).toNat) from
    hs x.bytes y.bytes x.nul y.nul h hb
  clear h hb
  induction b with
  | zero =>
    intro as bs _ _ _ hb
    cases as with
    | nil =>
      cases bs with
      | nil => exact absurd rfl hb
      | cons d bs => exact if_pos hb
    | cons c as =>
      cases bs with
      | nil => exact if_pos hb
      | cons d bs => exact if_pos hb
  | succ b ih =>
    intro as bs has hbs h hb
    have h0 := h 0 (Nat.succ_pos b)
    cases as with
    | nil =>
      cases bs with
      | nil => exact absurd rfl hb
      | cons d bs =>
        have e : 0 = d := h0
        exact absurd (e ▸ List.mem_cons_self) hbs
    | cons c as =>
      have hc : c ≠ 0 := fun e => has (e ▸ List.mem_cons_self)
      cases bs with
      | nil => exact absurd h0 hc
      | cons d bs =>
        have e : c = d := h0
        rw [List.cons_append, List.cons_append, strcmp_cons, if_neg (not_not.mpr e), if_neg hc]
        exact ih as bs (fun e => has (List.mem_cons_of_mem _ e))
          (fun e => hbs (List.mem_cons_of_mem _ e))
          (fun j hj => h (j + 1) (Nat.succ_lt_succ hj)) hb

/-- on terminated strings `strcmp` compares the keys -/
theorem strcmp_buf (x y : Key) : ∃ c, strcmp x.buf y.buf = .ok c ∧ (c = 0 ↔ x = y) := by
  by_cases e : x = y
  · rw [e]
    exact ⟨0, strcmp_self y, iff_of_true rfl rfl⟩
  · obtain ⟨b, h, hb⟩ := Key.exists_firstByte e
    refine ⟨_, strcmp_firstByte h hb, iff_of_false (fun h0 => hb ?_) e⟩
    exact UInt8.toNat_inj.mp (by omega)

end Critbit

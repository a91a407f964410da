import Critbit.Source.Memory

/-!
# The operations of `critbit_common.h` and `critbit.c`

Each function takes the heap and the arguments of the C function; a key argument that the function
indexes is passed as the characters in memory (`bytes`) together with the length that the code
passes along.  Results are the return value and the new heap.  `mnode` and `mstr` are the outcomes
of the `malloc` for the node and of the one in `alloc_string`.

A loop over the tree takes a number of rounds; `h.size + 1` is enough for every tree, and a walk
that needs more is in a cycle (`Fault.diverge`).  The loop over the bytes of the key counts down
from the bound that the code compares `newbyte` with.

The last store of an insertion is the one that publishes the new block, so `insertPrepare` stops
in front of it and `critbitInsertInplace` makes it.
-/

namespace Critbit

/-! ## `critbit_common.h` -/

/-- `alloc_string`: `len + sizeof(value) + 1` is computed in `size_t`, `len + 1` in `int` -/
def allocString (h : Heap) (o : Option Addr) (bytes : List UInt8) (len : Int) (value : Val) :
    M (Option (Ptr × Heap)) :=
  let size := sizeT (len + 8 + 1)
  match h.malloc o size with
  | none => pure none
  | some (a, h) =>
    if size < 8 then .error .bounds
    else if 2147483647 < len + 1 then .error .overflow
    else
      let n := sizeT (len + 1)
      if bytes.length < n ∨ size < 8 + n then .error .bounds
      else pure (some (.str a, h.insert a (.str ⟨value, bytes.take n⟩)))

/-- `free_string` -/
def freeString (h : Heap) : Ptr → M Heap
  | .null => .error .null
  | .node _ => .error .wild
  | .str a => h.free a

/-- `get_direction`; `node->byte < bytelen` compares as `size_t` -/
def getDirection (node : Node) (bytes : List UInt8) (bytelen : Nat) : M Bool :=
  if sizeT node.byte < bytelen then do
    let c ← readAt bytes node.byte
    pure (direction node.otherbits c)
  else pure false

def findNearestLoop (h : Heap) (bytes : List UInt8) (bytelen : Nat) : Nat → Ptr → M Ptr
  | 0, _ => .error .diverge
  | fuel + 1, .node a => do
    let node ← h.node a
    let dir ← getDirection node bytes bytelen
    findNearestLoop h bytes bytelen fuel (node.child dir)
  | _ + 1, p => pure p

/-- `find_nearest` -/
def findNearest (h : Heap) (p : Ptr) (bytes : List UInt8) (bytelen : Nat) : M Ptr :=
  findNearestLoop h bytes bytelen (h.size + 1) p

/-! ## insertion -/

/-- `for(newbyte = 0; newbyte < keylen; ++newbyte)`, with the rounds that are left -/
def compareLoop (p bytes : List UInt8) : Nat → Nat → M (Nat × Option UInt8)
  | 0, newbyte => pure (newbyte, none)
  | n + 1, newbyte => do
    let c ← readAt p newbyte
    let b ← readAt bytes newbyte
    if c ≠ b then pure (newbyte, some (c ^^^ b))
    else compareLoop p bytes n (newbyte + 1)

/-- the comparison of the new key with the nearest leaf: `newbyte` and the differing bits, or
`none` for a duplicate -/
def compareKeys (p bytes : List UInt8) (keylen : Int) : M (Option (Nat × UInt8)) := do
  let (newbyte, x) ← compareLoop p bytes (uint32 keylen) 0
  match x with
  | some x => pure (some (newbyte, x))
  | none => do
    let c ← readAt p newbyte
    if c ≠ 0 then pure (some (newbyte, c)) else pure none

/-- the walk to the slot where the new node goes; `q->byte` and `newbyte` compare as `uint32_t` -/
def spliceLoop (h : Heap) (bytes : List UInt8) (bytelen newbyte : Nat) (otherbits : UInt8) :
    Nat → Slot → M Slot
  | 0, _ => .error .diverge
  | fuel + 1, wherep => do
    let p ← h.load wherep
    match p with
    | .node a => do
      let q ← h.node a
      if newbyte < uint32 q.byte then pure wherep
      else if uint32 q.byte = newbyte ∧ otherbits < q.otherbits then pure wherep
      else do
        let dir ← getDirection q bytes bytelen
        spliceLoop h bytes bytelen newbyte otherbits fuel (.child a dir)
    | _ => pure wherep

/-- the part of `critbit_insert_inplace` after the label `found` -/
def spliceNode (h : Heap) (root : Addr) (bytes : List UInt8) (keylen : Int) (value : Val)
    (mnode mstr : Option Addr) (p : List UInt8) (newbyte : Nat) (x : UInt8) :
    M (Int × Heap × Option (Slot × Ptr)) := do
  let otherbits := newotherbits x
  let c ← readAt p newbyte
  let newdirection := direction otherbits c
  match h.malloc mnode 24 with
  | none => pure (1, h, none)
  | some (node, h) => do
    match ← allocString h mstr bytes keylen value with
    | none => do
      let h ← h.free node
      pure (1, h, none)
    | some (x, h) => do
      let h : Heap := h.insert node
        (.node ⟨Function.update (fun _ => .null) (!newdirection) x, int32 newbyte, otherbits⟩)
      let wherep ← spliceLoop h bytes (sizeT keylen) newbyte otherbits (h.size + 1) (.head root)
      let old ← h.load wherep
      let h ← h.store (.child node newdirection) old
      pure (0, h, some (wherep, .node node))

/-- `critbit_insert_inplace` up to the store that publishes the new block: the return value, the
heap, and that store -/
def insertPrepare (h : Heap) (root : Addr) (bytes : List UInt8) (keylen : Int) (value : Val)
    (mnode mstr : Option Addr) : M (Int × Heap × Option (Slot × Ptr)) := do
  let r ← h.root root
  if r.head = .null then do
    match ← allocString h mstr bytes keylen value with
    | none => pure (1, h, none)
    | some (p, h) => pure (0, h, some (.head root, p))
  else do
    let p ← findNearest h r.head bytes (sizeT keylen)
    let s ← h.str p
    match ← compareKeys s.chars bytes keylen with
    | none => pure (1, h, none)
    | some (newbyte, x) => spliceNode h root bytes keylen value mnode mstr s.chars newbyte x

/-- the store that `insertPrepare` stops in front of -/
def publish (r : Int × Heap × Option (Slot × Ptr)) : M (Int × Heap) :=
  match r.2.2 with
  | none => pure (r.1, r.2.1)
  | some (wherep, p) => do
    let h ← r.2.1.store wherep p
    pure (r.1, h)

/-- `critbit_insert_inplace` -/
def critbitInsertInplace (h : Heap) (root : Addr) (bytes : List UInt8) (keylen : Int) (value : Val)
    (mnode mstr : Option Addr) : M (Int × Heap) := do
  let r ← insertPrepare h root bytes keylen value mnode mstr
  publish r

/-- `critbit_insert`; `strlen` is narrowed to `int` -/
def critbitInsert (h : Heap) (root : Addr) (key : Key) (value : Val) (mnode mstr : Option Addr) :
    M (Int × Heap) :=
  critbitInsertInplace h root key.buf (int32 (strlen key)) value mnode mstr

/-! ## deletion -/

/-- the walk to the leaf, with `whereq`, `q` and `dir` of the last node passed -/
def deleteLoop (h : Heap) (bytes : List UInt8) (bytelen : Nat) :
    Nat → Ptr → Slot → Option (Slot × Addr × Bool) → M (Ptr × Option (Slot × Addr × Bool))
  | 0, _, _, _ => .error .diverge
  | fuel + 1, .node a, wherep, _ => do
    let q ← h.node a
    let dir ← getDirection q bytes bytelen
    deleteLoop h bytes bytelen fuel (q.child dir) (.child a dir) (some (wherep, a, dir))
  | _ + 1, p, _, up => pure (p, up)

/-- `critbit_delete_inplace`; it returns the unlinked leaf, the unlinked node, or `NULL` -/
def critbitDeleteInplace (h : Heap) (root : Addr) (bytes : List UInt8) (keylen : Int) :
    M (Ptr × Heap) := do
  let r ← h.root root
  if r.head = .null then pure (.null, h)
  else do
    let (p, up) ← deleteLoop h bytes (sizeT keylen) (h.size + 1) r.head (.head root) none
    let s ← h.str p
    let c ← strcmp bytes s.chars
    if c ≠ 0 then pure (.null, h)
    else
      match up with
      | none => do
        let h ← h.store (.head root) .null
        pure (p, h)
      | some (whereq, q, dir) => do
        let n ← h.node q
        let h ← h.store whereq (n.child (!dir))
        pure (.node q, h)

/-- `__sync_val_compare_and_swap(&root->cur_rwlock, old, new)` -/
def casCur (h : Heap) (root : Addr) (old new : RwLock) : M Heap := do
  let r ← h.root root
  pure (if r.cur = old then h.insert root (.root { r with cur := new }) else h)

/-- `__sync_val_compare_and_swap(&root->prev_rwlock, old, new)` -/
def casPrev (h : Heap) (root : Addr) (old new : RwLock) : M Heap := do
  let r ← h.root root
  pure (if r.prev = old then h.insert root (.root { r with prev := new }) else h)

/-- the child of the unlinked node that `critbit_delete` frees: `child[0]` if it is the leaf of the
key, else `child[1]` -/
def victim (h : Heap) (bytes : List UInt8) (node : Node) : M Ptr :=
  match node.child false with
  | .node _ => pure (node.child true)
  | p => do
    let s ← h.str p
    let c ← strcmp bytes s.chars
    pure (if c = 0 then p else node.child true)

/-- the end of `critbit_delete`: freeing what has been unlinked -/
def reclaim (h : Heap) (bytes : List UInt8) : Ptr → M Heap
  | .node a => do
    let node ← h.node a
    let leaf ← victim h bytes node
    let h ← freeString h leaf
    h.free a
  | p => freeString h p

/-- `critbit_delete`.  Without readers the old lock is free, so waiting for it does nothing. -/
def critbitDelete (h : Heap) (root : Addr) (key : Key) : M (Int × Heap) := do
  let (p, h) ← critbitDeleteInplace h root key.buf (int32 (strlen key))
  let r ← h.root root
  let h ← casCur h root r.cur r.prev
  let h ← casPrev h root r.prev r.cur
  if p = .null then pure (1, h)
  else do
    let h ← reclaim h key.buf p
    pure (0, h)

/-! ## lookup -/

/-- the comparison that ends `critbit_get`: the return value and `*out` -/
def getResult (h : Heap) (nearest : Ptr) (bytes : List UInt8) (out : Val) : M (Int × Val) := do
  let s ← h.str nearest
  let c ← strcmp s.chars bytes
  pure (if c = 0 then (0, s.value) else (1, out))

/-- `critbit_get`, with `*out` before the call -/
def critbitGet (h : Heap) (root : Addr) (key : Key) (out : Val) : M (Int × Val) := do
  let len := int32 (strlen key)
  let r ← h.root root
  let nearest ← findNearest h r.head key.buf (sizeT len)
  getResult h nearest key.buf out

/-- `critbit_contains` -/
def critbitContains (h : Heap) (root : Addr) (key : Key) : M Int := do
  let (ret, _) ← critbitGet h root key 0
  pure ret

/-! ## freeing the tree -/

/-- `clear_node`; the recursion is as deep as the tree -/
def clearNode : Nat → Heap → Ptr → M Heap
  | 0, _, _ => .error .diverge
  | fuel + 1, h, .node a => do
    let node ← h.node a
    let h ← clearNode fuel h (node.child false)
    -- `child[1]` is read when `child[0]` has been freed
    let node ← h.node a
    let h ← clearNode fuel h (node.child true)
    h.free a
  | _ + 1, h, p => freeString h p

/-- `critbit_clear` -/
def critbitClear (h : Heap) (root : Addr) : M Heap := do
  let r ← h.root root
  if r.head = .null then pure h
  else do
    let h ← clearNode (h.size + 1) h r.head
    let h ← h.store (.head root) .null
    h.free root

/-! ## the depths of the leaves -/

/-- `++out[depth]` -/
def increment (out : List Int) (depth : Int) : M (List Int) :=
  if depth < 0 then .error .bounds
  else
    match out[depth.toNat]? with
    | none => .error .bounds
    | some c => if c = 2147483647 then .error .overflow else pure (out.set depth.toNat (c + 1))

/-- `fill_depth` at a leaf (or at `NULL`): the array, and the depth that it prints -/
def fillLeaf (depth : Int) (out : List Int) (outsize : Int) : M (List Int × List Int) :=
  if outsize < depth then pure (out, [depth])
  else do
    let out ← increment out depth
    pure (out, [])

/-- `fill_depth`: the array `out`, and the depths that it prints as overflows -/
def fillDepth (h : Heap) : Nat → Ptr → Int → List Int → Int → M (List Int × List Int)
  | 0, _, _, _, _ => .error .diverge
  | fuel + 1, .node a, depth, out, outsize => do
    let node ← h.node a
    if 2147483647 < depth + 1 then .error .overflow
    else do
      let (out, l) ← fillDepth h fuel (node.child false) (depth + 1) out outsize
      let (out, r) ← fillDepth h fuel (node.child true) (depth + 1) out outsize
      pure (out, l ++ r)
  | _ + 1, _, depth, out, outsize => fillLeaf depth out outsize

/-! ## the tree as a whole, and the adapter of `helper.h` -/

/-- `critbit_new`; its `malloc` is not checked -/
def critbitNew (h : Heap) (o : Option Addr) : M (Addr × Heap) :=
  match h.malloc o 176 with
  | none => .error .null
  | some (root, h) => pure (root, h.insert root (.root ⟨.null, .left, .right⟩))

/-- `add` -/
def add (h : Heap) (root : Addr) (key : Key) (val : Val) (mnode mstr : Option Addr) :
    M (Int × Heap) := critbitInsert h root key val mnode mstr

/-- `find`: the return value of `critbit_get` is not looked at -/
def find (h : Heap) (root : Addr) (key : Key) : M Val := do
  let (_, out) ← critbitGet h root key 0
  pure out

/-- `del` -/
def del (h : Heap) (root : Addr) (key : Key) : M (Int × Heap) := critbitDelete h root key

/-- `clear` -/
def clear (h : Heap) (root : Addr) : M Heap := critbitClear h root

end Critbit

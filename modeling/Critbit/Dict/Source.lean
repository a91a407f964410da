import Critbit.Source.Memory
import Mathlib.Data.BitVec

/-!
# `redisdict.c`

The hash table that the drivers of `helper.c` run next to the tree.  A dict has two tables: while it is
rehashed, each call moves one bucket from `ht[0]` to `ht[1]`.

* `Dictht`       a table: each bucket is the list of its chain, `NULL` is a table without buckets;
* `EntryRef`     a `dictEntry *`: the table, the bucket, and how far down its chain;
* `dictRehash`, `dictExpand`, `dictAddRaw`, `dictFind`, `dictGenericDelete`, `dictScan`, ...   the
                 functions, under their names.

The code does not check what `malloc` and `calloc` return.  `DictMem` says what they grant; what they do
not grant is `NULL`, which faults when it is used.
-/

namespace Critbit

/-- `dictEntry`; the value is not there before `dictSetVal` -/
structure DictEntry (K V : Type) where
  key : K
  val : Option V
deriving DecidableEq

/-- `dictht` -/
structure Dictht (K V : Type) where
  table : List (List (DictEntry K V))
  size : Nat
  sizemask : Nat
  used : Nat
deriving DecidableEq

/-- `dict` -/
structure Dict (K V : Type) where
  ht0 : Dictht K V
  ht1 : Dictht K V
  rehashidx : Int
  iterators : Int
deriving DecidableEq

/-- `dictType`: what the table is told about keys -/
structure DictType (K : Type) where
  hashFunction : K → UInt32
  keyCompare : K → K → Bool
  /-- equal keys are the same -/
  compare_iff : ∀ x y, keyCompare x y = true ↔ x = y

/-- a `dictEntry *` -/
structure EntryRef where
  /-- in `ht[1]` -/
  table : Bool
  index : Nat
  pos : Nat
deriving DecidableEq

/-- what is granted: `calloc` of so many bytes, and `malloc` of a record or a string -/
structure DictMem where
  calloc : Nat → Bool
  malloc : Bool

variable {K V : Type}

/-! ## tables -/

/-- `_dictReset` -/
def dictReset : Dictht K V := ⟨[], 0, 0, 0⟩

/-- `table[i]` -/
def Dictht.chain (t : Dictht K V) (i : Int) : M (List (DictEntry K V)) :=
  if i < 0 then .error .bounds
  else
    match t.table[i.toNat]? with
    | some ch => pure ch
    | none => .error .bounds

/-- `table[i] = ch`, for a bucket that is there -/
def Dictht.setChain (t : Dictht K V) (i : Int) (ch : List (DictEntry K V)) : Dictht K V :=
  { t with table := t.table.set i.toNat ch }

/-- `i++` of an `int` -/
def incInt (i : Int) : M Int := if i = 2147483647 then .error .overflow else pure (i + 1)

/-- `_dictInit` -/
def dictInit : Dict K V := ⟨dictReset, dictReset, -1, 0⟩

/-- `dictCreate` -/
def dictCreate (mem : DictMem) : M (Dict K V) := if mem.malloc then pure dictInit else .error .null

namespace Dict

/-- `dictIsRehashing` -/
def isRehashing (d : Dict K V) : Bool := d.rehashidx ≠ -1

/-- `dictSize` -/
def count (d : Dict K V) : Nat := d.ht0.used + d.ht1.used

def ht (d : Dict K V) (table : Bool) : Dictht K V := if table then d.ht1 else d.ht0

def setHt (d : Dict K V) (table : Bool) (t : Dictht K V) : Dict K V :=
  if table then { d with ht1 := t } else { d with ht0 := t }

/-- `*entry` -/
def entry (d : Dict K V) (e : EntryRef) : M (DictEntry K V) := do
  let ch ← (d.ht e.table).chain e.index
  match ch[e.pos]? with
  | some x => pure x
  | none => .error .dead

end Dict

/-- `dictSetVal`, without `valDup` -/
def dictSetVal (d : Dict K V) (e : EntryRef) (val : V) : M (Dict K V) := do
  let x ← d.entry e
  let ch ← (d.ht e.table).chain e.index
  pure (d.setHt e.table ((d.ht e.table).setChain e.index (ch.set e.pos { x with val := some val })))

/-! ## growing -/

def dictNextPowerLoop (size : Nat) : Nat → Nat → Nat
  | 0, i => i
  | fuel + 1, i => if size ≤ i then i else dictNextPowerLoop size fuel (i * 2)

/-- `_dictNextPower`; the loop ends before `i` has 63 bits -/
def dictNextPower (size : Nat) : Nat :=
  if 9223372036854775807 ≤ size then 9223372036854775807 else dictNextPowerLoop size 63 4

/-- `calloc(1, realsize*sizeof(dictEntry*))`; no bytes are `NULL` too -/
def DictMem.table (mem : DictMem) (realsize : Nat) : List (List (DictEntry K V)) :=
  let bytes := sizeT (realsize * 8)
  if mem.calloc bytes then List.replicate (bytes / 8) [] else []

/-- `dictExpand`: `0` for `DICT_OK`, `1` for `DICT_ERR` -/
def dictExpand (mem : DictMem) (d : Dict K V) (size : Nat) : Int × Dict K V :=
  let realsize := dictNextPower size
  if d.isRehashing ∨ size < d.ht0.used then (1, d)
  else
    let n : Dictht K V := ⟨mem.table realsize, realsize, realsize - 1, 0⟩
    if d.ht0.table = [] then (0, { d with ht0 := n })
    else (0, { d with ht1 := n, rehashidx := 0 })

/-- `dictResize`; `canResize` is the global `dict_can_resize` -/
def dictResize (mem : DictMem) (canResize : Bool) (d : Dict K V) : Int × Dict K V :=
  if !canResize ∨ d.isRehashing then (1, d)
  else
    let minimal := int32 d.ht0.used
    let minimal := if minimal < 4 then 4 else minimal
    dictExpand mem d (sizeT minimal)

/-- `_dictExpandIfNeeded` -/
def dictExpandIfNeeded (mem : DictMem) (canResize : Bool) (d : Dict K V) : Int × Dict K V :=
  if d.isRehashing then (0, d)
  else if d.ht0.size = 0 then dictExpand mem d 4
  else if d.ht0.size ≤ d.ht0.used ∧ (canResize ∨ 5 < d.ht0.used / d.ht0.size) then
    dictExpand mem d (d.ht0.used * 2)
  else (0, d)

/-! ## rehashing -/

section
variable (ty : DictType K) (mem : DictMem)

/-- `dictHashKey(d, key) & sizemask` -/
def DictType.index (h : UInt32) (t : Dictht K V) : Nat := h.toNat &&& t.sizemask

/-- the entries of a bucket, one after another, to the heads of their new chains -/
def moveChain : List (DictEntry K V) → Dict K V → M (Dict K V)
  | [], d => pure d
  | de :: next, d => do
    let h := DictType.index (ty.hashFunction de.key) d.ht1
    let ch ← d.ht1.chain h
    moveChain next { d with
      ht0 := { d.ht0 with used := d.ht0.used - 1 }
      ht1 := { d.ht1.setChain h (de :: ch) with used := d.ht1.used + 1 } }

/-- `while(table[rehashidx] == NULL) rehashidx++` -/
def skipEmpty (t : Dictht K V) : Nat → Int → M Int
  | 0, _ => .error .diverge
  | fuel + 1, i => do
    let ch ← t.chain i
    match ch with
    | [] => do
      let i ← incInt i
      skipEmpty t fuel i
    | _ :: _ => pure i

/-- one bucket of `dictRehash` -/
def rehashBucket (d : Dict K V) : M (Dict K V) := do
  let i ← skipEmpty d.ht0 (d.ht0.table.length + 1) d.rehashidx
  let ch ← d.ht0.chain i
  let d ← moveChain ty ch d
  let next ← incInt i
  pure { d with ht0 := d.ht0.setChain i [], rehashidx := next }

def rehashLoop : Nat → Dict K V → M (Int × Dict K V)
  | 0, d => pure (1, d)
  | n + 1, d =>
    if d.ht0.used = 0 then pure (0, { d with ht0 := d.ht1, ht1 := dictReset, rehashidx := -1 })
    else do
      let d ← rehashBucket ty d
      rehashLoop n d

/-- `dictRehash`: `1` if there is more to move -/
def dictRehash (d : Dict K V) (n : Nat) : M (Int × Dict K V) :=
  if d.isRehashing then rehashLoop ty n d else pure (0, d)

/-- `_dictRehashStep`, if the dict is rehashed -/
def dictRehashStep (d : Dict K V) : M (Dict K V) :=
  if d.isRehashing ∧ d.iterators = 0 then do
    let (_, d) ← dictRehash ty d 1
    pure d
  else pure d

/-! ## keys -/

/-- a walk down the chain of the key: the bucket, and where the key is -/
def searchTable (t : Dictht K V) (key : K) : M (Nat × Option Nat) := do
  let idx := DictType.index (ty.hashFunction key) t
  let ch ← t.chain idx
  pure (idx, ch.findIdx? fun he => ty.keyCompare key he.key)

/-- `_dictKeyIndex` -/
def dictKeyIndex (canResize : Bool) (d : Dict K V) (key : K) : M (Int × Dict K V) :=
  let (ret, d) := dictExpandIfNeeded mem canResize d
  if ret = 1 then pure (-1, d)
  else do
    let (idx, he) ← searchTable ty d.ht0 key
    if he.isSome then pure (-1, d)
    else if d.isRehashing then do
      let (idx, he) ← searchTable ty d.ht1 key
      if he.isSome then pure (-1, d) else pure (int32 idx, d)
    else pure (int32 idx, d)

/-- `dictAddRaw`: `NULL` if the key is there already -/
def dictAddRaw (canResize : Bool) (d : Dict K V) (key : K) : M (Option EntryRef × Dict K V) := do
  let d ← dictRehashStep ty d
  let (index, d) ← dictKeyIndex ty mem canResize d key
  if index = -1 then pure (none, d)
  else if mem.malloc then do
    let ht := d.ht d.isRehashing
    let ch ← ht.chain index
    let ht := { ht.setChain index (⟨key, none⟩ :: ch) with used := ht.used + 1 }
    pure (some ⟨d.isRehashing, index.toNat, 0⟩, d.setHt d.isRehashing ht)
  else .error .null

/-- `dictAdd` -/
def dictAdd (canResize : Bool) (d : Dict K V) (key : K) (val : V) : M (Int × Dict K V) := do
  let (entry, d) ← dictAddRaw ty mem canResize d key
  match entry with
  | none => pure (1, d)
  | some entry => do
    let d ← dictSetVal d entry val
    pure (0, d)

/-- `dictFind` -/
def dictFind (d : Dict K V) (key : K) : M (Option EntryRef × Dict K V) :=
  if d.ht0.size = 0 then pure (none, d)
  else do
    let d ← dictRehashStep ty d
    let (idx, he) ← searchTable ty d.ht0 key
    match he with
    | some pos => pure (some ⟨false, idx, pos⟩, d)
    | none =>
      if d.isRehashing then do
        let (idx, he) ← searchTable ty d.ht1 key
        pure (he.map fun pos => ⟨true, idx, pos⟩, d)
      else pure (none, d)

/-- `dictFetchValue` -/
def dictFetchValue (d : Dict K V) (key : K) : M (Option V × Dict K V) := do
  let (he, d) ← dictFind ty d key
  match he with
  | none => pure (none, d)
  | some he => do
    let x ← d.entry he
    pure (x.val, d)

/-- `dictReplace` -/
def dictReplace (canResize : Bool) (d : Dict K V) (key : K) (val : V) : M (Int × Dict K V) := do
  let (ret, d) ← dictAdd ty mem canResize d key val
  if ret = 0 then pure (1, d)
  else do
    let (entry, d) ← dictFind ty d key
    match entry with
    | none => .error .null
    | some entry => do
      let d ← dictSetVal d entry val
      pure (0, d)

/-- `dictReplaceRaw` -/
def dictReplaceRaw (canResize : Bool) (d : Dict K V) (key : K) : M (Option EntryRef × Dict K V) := do
  let (entry, d) ← dictFind ty d key
  match entry with
  | some entry => pure (some entry, d)
  | none => dictAddRaw ty mem canResize d key

/-- the entry at `pos` is unlinked -/
def unlinkEntry (d : Dict K V) (e : EntryRef) : M (Dict K V) := do
  let t := d.ht e.table
  let ch ← t.chain e.index
  pure (d.setHt e.table { t.setChain e.index (ch.eraseIdx e.pos) with used := t.used - 1 })

/-- `dictGenericDelete`; the memory of the entry is left out -/
def dictGenericDelete (d : Dict K V) (key : K) : M (Int × Dict K V) :=
  if d.ht0.size = 0 then pure (1, d)
  else do
    let d ← dictRehashStep ty d
    let (idx, he) ← searchTable ty d.ht0 key
    match he with
    | some pos => do
      let d ← unlinkEntry d ⟨false, idx, pos⟩
      pure (0, d)
    | none =>
      if d.isRehashing then do
        let (idx, he) ← searchTable ty d.ht1 key
        match he with
        | some pos => do
          let d ← unlinkEntry d ⟨true, idx, pos⟩
          pure (0, d)
        | none => pure (1, d)
      else pure (1, d)

end

/-- the loop of `_dictClear`: the entries that are freed -/
def clearLoop : List (List (DictEntry K V)) → Nat → List (DictEntry K V)
  | [], _ => []
  | ch :: table, used => if used = 0 then [] else ch ++ clearLoop table (used - ch.length)

/-- `_dictClear` -/
def dictClear (t : Dictht K V) : List (DictEntry K V) × Dictht K V :=
  (clearLoop t.table t.used, dictReset)

/-- `dictEmpty` -/
def dictEmpty (d : Dict K V) : List (DictEntry K V) × Dict K V :=
  ((dictClear d.ht0).1 ++ (dictClear d.ht1).1,
    { d with ht0 := (dictClear d.ht0).2, ht1 := (dictClear d.ht1).2, rehashidx := -1, iterators := 0 })

/-! ## scanning -/

/-- one round of `rev`, with the mask before it -/
def revRound (s : Nat) (vm : BitVec 64 × BitVec 64) : BitVec 64 × BitVec 64 :=
  let mask := vm.2 ^^^ (vm.2 <<< s)
  (((vm.1 >>> s) &&& mask) ||| ((vm.1 <<< s) &&& ~~~mask), mask)

/-- `rev` -/
def rev (v : BitVec 64) : BitVec 64 :=
  (revRound 1 (revRound 2 (revRound 4 (revRound 8 (revRound 16 (revRound 32 (v, ~~~0))))))).1

/-- the entries of bucket `v & m` -/
def emit (t : Dictht K V) (v m : BitVec 64) : M (List (DictEntry K V)) := t.chain (v &&& m).toNat

/-- the cursor of the larger table goes on, in the bits that the smaller mask has not -/
def nextExpansion (v m0 : BitVec 64) : BitVec 64 := (((v ||| m0) + 1) &&& ~~~m0) ||| (v &&& m0)

/-- the `do` loop of `dictScan` -/
def scanLarger (t1 : Dictht K V) (m0 m1 : BitVec 64) :
    Nat → BitVec 64 → M (List (DictEntry K V) × BitVec 64)
  | 0, _ => .error .diverge
  | fuel + 1, v => do
    let ch ← emit t1 v m1
    let v := nextExpansion v m0
    if v &&& (m0 ^^^ m1) = 0 then pure (ch, v)
    else do
      let (es, v) ← scanLarger t1 m0 m1 fuel v
      pure (ch ++ es, v)

/-- the next cursor -/
def nextCursor (v m0 : BitVec 64) : BitVec 64 := rev (rev (v ||| ~~~m0) + 1)

/-- `dictScan`: the entries that `fn` is called with, and the next cursor -/
def dictScan (d : Dict K V) (v : BitVec 64) : M (List (DictEntry K V) × BitVec 64) :=
  if d.count = 0 then pure ([], 0)
  else if d.isRehashing then do
    let (t0, t1) := if d.ht1.size < d.ht0.size then (d.ht1, d.ht0) else (d.ht0, d.ht1)
    let m0 := BitVec.ofNat 64 t0.sizemask
    let m1 := BitVec.ofNat 64 t1.sizemask
    let es ← emit t0 v m0
    let (es', v) ← scanLarger t1 m0 m1 (t1.size + 1) v
    pure (es ++ es', nextCursor v m0)
  else do
    let m0 := BitVec.ofNat 64 d.ht0.sizemask
    let es ← emit d.ht0 v m0
    pure (es, nextCursor v m0)

end Critbit

import Critbit.Dict.Source

/-!
# String keys

`dictTypeHeapStringCopyKey`, and the functions of `helper.h` over it.  `_dictStringDup` copies a key of less
than 2^31 bytes, so that the keys of the dict are strings of their own.

* `dictGenHashFunction`   MurmurHash2, as on a little-endian machine;
* `Redisdict`             `init`, `add`, `find`, `del` and `clear`.
-/

namespace Critbit

/-- `m` -/
def murmurM : UInt32 := 0x5bd1e995

/-- `*(uint32_t*)data` -/
def word (a b c d : UInt8) : UInt32 :=
  a.toUInt32 ||| (b.toUInt32 <<< 8) ||| (c.toUInt32 <<< 16) ||| (d.toUInt32 <<< 24)

/-- the `while` loop and the `switch`; the list has `len` bytes -/
def murmurLoop : List UInt8 → UInt32 → UInt32
  | a :: b :: c :: d :: data, h =>
    let k := word a b c d * murmurM
    let k := (k ^^^ (k >>> 24)) * murmurM
    murmurLoop data ((h * murmurM) ^^^ k)
  | [a, b, c], h => (h ^^^ (c.toUInt32 <<< 16) ^^^ (b.toUInt32 <<< 8) ^^^ a.toUInt32) * murmurM
  | [a, b], h => (h ^^^ (b.toUInt32 <<< 8) ^^^ a.toUInt32) * murmurM
  | [a], h => (h ^^^ a.toUInt32) * murmurM
  | [], h => h

/-- `dictGenHashFunction`; `seed` is the global `dict_hash_function_seed` -/
def dictGenHashFunction (seed : UInt32) (key : List UInt8) (len : Int) : UInt32 :=
  let h := murmurLoop (key.take len.toNat) (seed ^^^ UInt32.ofNat (uint32 len))
  let h := (h ^^^ (h >>> 13)) * murmurM
  h ^^^ (h >>> 15)

example : dictGenHashFunction 5381 [97, 98, 99, 100, 101] 5 = 264408196 := by decide

/-- `_dictStringCopyHTHashFunction` -/
def dictStringCopyHTHashFunction (seed : UInt32) (key : Key) : UInt32 :=
  dictGenHashFunction seed key.bytes (int32 (strlen key))

/-- `_dictStringCopyHTKeyCompare` -/
def dictStringCopyHTKeyCompare (key1 key2 : Key) : Bool :=
  match strcmp key1.buf key2.buf with
  | .ok c => c = 0
  | .error _ => false

theorem keyCompare_iff (x y : Key) : dictStringCopyHTKeyCompare x y = true ↔ x = y := by
  obtain ⟨c, e, hc⟩ := strcmp_buf x y
  unfold dictStringCopyHTKeyCompare
  rw [e]
  exact decide_eq_true_iff.trans hc

/-- `dictTypeHeapStringCopyKey` -/
def dictTypeHeapStringCopyKey (seed : UInt32) : DictType Key :=
  ⟨dictStringCopyHTHashFunction seed, dictStringCopyHTKeyCompare, keyCompare_iff⟩

namespace Redisdict

/-- the seed that nothing of `helper.c` sets -/
def dictType : DictType Key := dictTypeHeapStringCopyKey 5381

/-- `init` -/
def init (mem : DictMem) : M (Dict Key Val) := dictCreate mem

/-- `add` -/
def add (mem : DictMem) (d : Dict Key Val) (key : Key) (val : Val) : M (Int × Dict Key Val) :=
  dictAdd dictType mem true d key val

/-- `find`: `NULL` if there is no entry -/
def find (d : Dict Key Val) (key : Key) : M (Val × Dict Key Val) := do
  let (entry, d) ← dictFind dictType d key
  match entry with
  | none => pure (0, d)
  | some entry => do
    let x ← d.entry entry
    match x.val with
    | none => .error .wild
    | some v => pure (v, d)

/-- `del` -/
def del (d : Dict Key Val) (key : Key) : M (Int × Dict Key Val) := dictGenericDelete dictType d key

/-- `clear` -/
def clear (d : Dict Key Val) : Dict Key Val := (dictEmpty d).2

end Redisdict

end Critbit

import Critbit.Dict.Refine

/-!
# Iterators

`dictNext` walks down the chains of `ht[0]` and, during a rehashing, of `ht[1]`.  A safe iterator counts
itself in `iterators`, which stops `_dictRehashStep`; meanwhile keys may be looked up and added, and those
that have been returned may be deleted.

* `Ahead`          the keys that are still to come, a queue;
* `dictNext_spec`  `dictNext` takes its first key;
* `Phase`          an iteration that has not begun, or one that is underway;
* `iterate_once`   in a whole iteration every key comes once, and no call faults;
* `Iterating.finish`   `dictNext` alone brings every iteration to its end.
-/

namespace Critbit
variable {K V : Type} {ty : DictType K}

/-- `dictIterator`, without `d` and `fingerprint`; an entry in a bucket is named by its key -/
structure DictIterator (K : Type) where
  table : Bool
  index : Int
  safe : Bool
  entry : Option K
  nextEntry : Option K

def dictGetIterator (mem : DictMem) : M (DictIterator K) :=
  if mem.malloc then pure ⟨false, -1, false, none, none⟩ else .error .null

def dictGetSafeIterator (mem : DictMem) : M (DictIterator K) := do
  let i ← dictGetIterator mem
  pure { i with safe := true }

section
variable [DecidableEq K]

/-- `entry->next`, for an entry of the chain -/
def nextOf (ch : List (DictEntry K V)) (key : K) : M (Option K) :=
  match ch.dropWhile fun e => e.key ≠ key with
  | [] => .error .dead
  | _ :: next => pure (next.head?.map (·.key))

/-- the first bucket: a safe iterator counts itself -/
def countIterator (d : Dict K V) (it : DictIterator K) : M (Dict K V) :=
  if it.index = -1 ∧ it.table = false ∧ it.safe then do
    let n ← incInt d.iterators
    pure { d with iterators := n }
  else pure d

/-- to the next bucket, if there is one -/
def nextBucket (d : Dict K V) (it : DictIterator K) : M (Bool × DictIterator K) := do
  let index ← incInt it.index
  if (d.ht it.table).size ≤ index then
    if d.isRehashing ∧ it.table = false then pure (true, { it with table := true, index := 0 })
    else pure (false, { it with index := index })
  else pure (true, { it with index := index })

/-- `entry = table[index]` -/
def firstOf (d : Dict K V) (it : DictIterator K) : M (Option K × DictIterator K) := do
  let ch ← (d.ht it.table).chain it.index
  match ch with
  | [] => pure (none, { it with entry := none })
  | e :: _ => do
    let next ← nextOf ch e.key
    pure (some e.key, { it with entry := some e.key, nextEntry := next })

/-- the loop of `dictNext` -/
def dictNextLoop : Nat → Dict K V → DictIterator K → M (Option K × DictIterator K × Dict K V)
  | 0, _, _ => .error .diverge
  | fuel + 1, d, it =>
    match it.entry, it.nextEntry with
    | none, _ => do
      let d ← countIterator d it
      let (more, it) ← nextBucket d it
      if more then do
        let (entry, it) ← firstOf d it
        match entry with
        | none => dictNextLoop fuel d it
        | some key => pure (some key, it, d)
      else pure (none, it, d)
    | some _, none => dictNextLoop fuel d { it with entry := none }
    | some _, some key => do
      let ch ← (d.ht it.table).chain it.index
      let next ← nextOf ch key
      pure (some key, { it with entry := some key, nextEntry := next }, d)

/-- `dictNext`: the loop ends after the last bucket -/
def dictNext (d : Dict K V) (it : DictIterator K) : M (Option K × DictIterator K × Dict K V) :=
  dictNextLoop (d.ht0.size + d.ht1.size + 3) d it

end

/-- `dictReleaseIterator` -/
def dictReleaseIterator (d : Dict K V) (it : DictIterator K) : Dict K V :=
  if ¬ (it.index = -1 ∧ it.table = false) ∧ it.safe then { d with iterators := d.iterators - 1 } else d

/-! ## the keys to come -/

namespace Dict
variable {d d1 : Dict K V} {t : Dictht K V} {b : Bool} {i j : Nat} {ch : List (DictEntry K V)}
  {it : DictIterator K} {key k : K} {l pre suf : List K}

/-- the keys of the buckets from `i` on, and those of `ht[1]` after them -/
def later (d : Dict K V) (table : Bool) (i : Nat) : List K :=
  ((d.ht table).table.drop i).flatten.map (·.key) ++
    if table = false ∧ d.isRehashing = true then d.ht1.entries.map (·.key) else []

/-- the keys that `dictNext` returns from here on, after it has returned an entry -/
inductive Ahead (d : Dict K V) (it : DictIterator K) : List K → Prop
  | entry {i : Nat} {pre suf : List (DictEntry K V)} (he : it.entry ≠ none) (hi : it.index = i)
      (hc : (d.ht it.table).table[i]? = some (pre ++ suf)) (hn : it.nextEntry = (suf.map (·.key)).head?) :
      Ahead d it (suf.map (·.key) ++ d.later it.table (i + 1))

theorem Shape.ht_cases (S : d.Shape ty) (b : Bool) : d.ht b = dictReset ∨ (d.ht b).Wf ty := by
  cases S with
  | new h0 h1 =>
    cases b with
    | false => exact .inl h0
    | true => exact .inl h1
  | plain W h1 =>
    cases b with
    | false => exact .inr W
    | true => exact .inl h1
  | rehashing _ W0 W1 =>
    cases b with
    | false => exact .inr W0
    | true => exact .inr W1

theorem Shape.length_eq (S : d.Shape ty) (b : Bool) : (d.ht b).table.length = (d.ht b).size := by
  rcases S.ht_cases b with h | W
  · rw [h]
    rfl
  · exact W.length

theorem Shape.size_le (S : d.Shape ty) (b : Bool) : (d.ht b).size ≤ 1073741824 := by
  rcases S.ht_cases b with h | W
  · rw [h]
    exact Nat.zero_le _
  · exact W.size_le

theorem Shape.setIterators (S : d.Shape ty) (n : Int) : Shape ty { d with iterators := n } := by
  cases S with
  | new h0 h1 hr => exact .new h0 h1 hr
  | plain W h1 hr => exact .plain W h1 hr
  | rehashing i W0 W1 hr hi below => exact .rehashing i W0 W1 hr hi below

/-- in the beginning, all keys are still to come -/
theorem Shape.later_zero (S : d.Shape ty) : d.later false 0 = d.entries.map (·.key) := by
  unfold later entries
  rw [List.map_append, List.drop_zero]
  refine congrArg (_ ++ ·) ?_
  cases hr : d.isRehashing with
  | true => rfl
  | false =>
    rw [S.of_not_rehashing hr]
    rfl

theorem later_bucket (hc : (d.ht b).table[i]? = some ch) :
    d.later b i = ch.map (·.key) ++ d.later b (i + 1) := by
  obtain ⟨hi, rfl⟩ := List.getElem?_eq_some_iff.mp hc
  unfold later
  rw [List.drop_eq_getElem_cons hi, List.flatten_cons, List.map_append, List.append_assoc]

theorem later_end (hi : (d.ht b).table.length ≤ i) :
    d.later b i = if b = false ∧ d.isRehashing = true then d.ht1.entries.map (·.key) else [] := by
  unfold later
  rw [List.drop_eq_nil_of_le hi]
  rfl

/-- `dictNext` can look at so many buckets from here on -/
def bucketsLeft (d : Dict K V) (table : Bool) (i : Nat) : Nat :=
  (d.ht table).size - i + if table = false then d.ht1.size + 1 else 0

/-- the keys of an entry's bucket are different -/
theorem nodup_bucket (hn : (d.entries.map (·.key)).Nodup) (hc : (d.ht b).table[i]? = some ch) :
    (ch.map (·.key)).Nodup := by
  have hsub : ch.Sublist (d.ht b).entries := List.sublist_flatten_of_mem (List.mem_of_getElem? hc)
  refine hn.sublist (List.Sublist.map _ (hsub.trans ?_))
  cases b with
  | false => exact List.sublist_append_left _ _
  | true => exact List.sublist_append_right _ _

theorem nextBucket_spec (S : d.Shape ty) (hi : it.index = (i : Int) - 1) (hle : i ≤ (d.ht it.table).size) :
    nextBucket d it = .ok (false, { it with index := (i : Nat) }) ∧ d.later it.table i = [] ∨
      ∃ b j, nextBucket d it = .ok (true, { it with table := b, index := (j : Nat) }) ∧
        j < (d.ht b).size ∧ d.later it.table i = d.later b j ∧
        bucketsLeft d b (j + 1) < bucketsLeft d it.table i := by
  have hlen := S.length_eq it.table
  have hmax := S.size_le it.table
  have hinc : incInt it.index = .ok (i : Int) := by
    unfold incInt
    rw [hi, if_neg (by omega)]
    exact congrArg Except.ok (by omega)
  unfold nextBucket
  rw [hinc, ok_bind]
  by_cases hend : (d.ht it.table).size ≤ i
  · rw [if_pos (Int.ofNat_le.mpr hend)]
    have hl := later_end (d := d) (b := it.table) (i := i) (by omega)
    by_cases hr : d.isRehashing = true ∧ it.table = false
    · rw [if_pos hr]
      obtain ⟨-, W1, -⟩ := S.of_rehashing hr.1
      refine .inr ⟨true, 0, rfl, W1.size_pos, ?_, ?_⟩
      · rw [hl, if_pos hr.symm]
        unfold later
        rw [if_neg (by simp), List.append_nil]
        rfl
      · unfold bucketsLeft
        rw [if_neg (by decide), if_pos hr.2]
        change d.ht1.size - (0 + 1) + 0 < _
        omega
    · rw [if_neg hr]
      refine .inl ⟨rfl, ?_⟩
      rw [hl, if_neg fun h => hr h.symm]
  · rw [if_neg fun h => hend (Int.ofNat_le.mp h)]
    refine .inr ⟨it.table, i, rfl, by omega, rfl, ?_⟩
    unfold bucketsLeft
    omega

section
variable [DecidableEq K]

theorem nextOf_append (pre suf : List (DictEntry K V)) {e : DictEntry K V}
    (hn : ((pre ++ e :: suf).map (·.key)).Nodup) :
    nextOf (pre ++ e :: suf) e.key = .ok (suf.head?.map (·.key)) := by
  have hpre : ∀ x ∈ pre, x.key ≠ e.key := by
    intro x hx he
    rw [List.map_append, List.nodup_append] at hn
    exact hn.2.2 _ (List.mem_map_of_mem hx) _ (List.mem_cons_self ..) he
  have hdrop : (pre ++ e :: suf).dropWhile (fun x => x.key ≠ e.key) = e :: suf := by
    rw [List.dropWhile_append_of_pos (by simpa using hpre)]
    exact List.dropWhile_cons_of_neg (by simp)
  unfold nextOf
  rw [hdrop]
  rfl

theorem firstOf_spec (it : DictIterator K) (hn : (d.entries.map (·.key)).Nodup) (hi : it.index = (j : Nat))
    (hc : (d.ht it.table).table[j]? = some ch) :
    ch = [] ∧ firstOf d it = .ok (none, { it with entry := none }) ∨
      ∃ e suf it', ch = e :: suf ∧ firstOf d it = .ok (some e.key, it') ∧
        Ahead d it' (suf.map (·.key) ++ d.later it.table (j + 1)) ∧ it'.index = (j : Nat) ∧
        it'.safe = it.safe := by
  unfold firstOf
  rw [hi, Dictht.chain_ok hc, ok_bind]
  cases ch with
  | nil => exact .inl ⟨rfl, by rw [← hi]; rfl⟩
  | cons e suf =>
    have hnext : nextOf (e :: suf) e.key = .ok (suf.head?.map (·.key)) :=
      nextOf_append [] suf (nodup_bucket hn hc)
    have hc' : (d.ht it.table).table[j]? = some ([e] ++ suf) := hc
    refine .inr ⟨e, suf, _, rfl, by simp only [hnext, ok_bind]; rfl, ?_⟩
    exact ⟨.entry nofun rfl hc' List.head?_map.symm, rfl, rfl⟩

/-- the loop, at the end of a bucket -/
theorem nextLoop_spec (fuel : Nat) (it : DictIterator K) (i : Nat) (S : d1.Shape ty)
    (hn : (d1.entries.map (·.key)).Nodup) (he : it.entry = none) (hi : it.index = (i : Int) - 1)
    (hle : i ≤ (d1.ht it.table).size) (hcount : countIterator d it = .ok d1)
    (hf : bucketsLeft d1 it.table i < fuel) :
    ∃ it', dictNextLoop fuel d it = .ok ((d1.later it.table i).head?, it', d1) ∧
      it'.index ≠ -1 ∧ it'.safe = it.safe ∧ ∀ k l, d1.later it.table i = k :: l → Ahead d1 it' l := by
  induction fuel generalizing it i d with
  | zero => exact absurd hf (Nat.not_lt_zero _)
  | succ fuel ih =>
    unfold dictNextLoop
    simp only [he, hcount, ok_bind]
    rcases nextBucket_spec S hi hle with ⟨hb, hl⟩ | ⟨b, j, hb, hj, hl, hlt⟩
    · refine ⟨{ it with index := (i : Nat) }, ?_, ?_, rfl, fun k l h => absurd (hl.symm.trans h) nofun⟩
      · simp only [hb, ok_bind, hl]
        rfl
      · show (i : Int) ≠ -1
        omega
    · have hj' := hj
      rw [← S.length_eq b] at hj'
      obtain ⟨ch, hc⟩ : ∃ ch, (d1.ht b).table[j]? = some ch := ⟨_, List.getElem?_eq_getElem hj'⟩
      simp only [hb, ok_bind]
      have hfirst := firstOf_spec { it with table := b, index := (j : Nat) } hn rfl hc
      rw [hl, later_bucket hc]
      rcases hfirst with ⟨rfl, hx⟩ | ⟨e, suf, it', rfl, hx, hA, hi', hs'⟩
      · simp only [hx, ok_bind, List.map_nil, List.nil_append, if_true]
        refine ih _ (j + 1) rfl ?_ hj ?_ (Nat.lt_of_lt_of_le hlt (Nat.le_of_lt_succ hf))
        · show (j : Int) = ((j + 1 : Nat) : Int) - 1
          omega
        · unfold countIterator
          rw [if_neg]
          · rfl
          · show ¬ ((j : Int) = -1 ∧ _)
            omega
      · simp only [hx, ok_bind, if_true]
        refine ⟨it', rfl, by omega, hs', fun k l h => ?_⟩
        obtain ⟨rfl, rfl⟩ := List.cons.inj h
        exact hA

omit [DecidableEq K] in
theorem getSafeIterator_eq {mem : DictMem} (e : dictGetSafeIterator mem = .ok it) :
    it = ⟨false, -1, true, none, none⟩ := by
  unfold dictGetSafeIterator dictGetIterator at e
  split at e
  · exact (Except.ok.inj e).symm
  · cases e

/-- **The first `dictNext`** of a safe iterator, which is counted -/
theorem dictNext_first {mem : DictMem} (e : dictGetSafeIterator mem = .ok it) (S : d.Shape ty)
    (hn : (d.entries.map (·.key)).Nodup) (hi : d.iterators < 2147483647) :
    ∃ it', dictNext d it = .ok ((d.later false 0).head?, it', { d with iterators := d.iterators + 1 }) ∧
      it'.index ≠ -1 ∧ it'.safe = true ∧
      ∀ k l, d.later false 0 = k :: l → Ahead { d with iterators := d.iterators + 1 } it' l := by
  obtain rfl := getSafeIterator_eq e
  have hcount : countIterator d ⟨false, -1, true, none, none⟩ =
      .ok { d with iterators := d.iterators + 1 } := by
    unfold countIterator
    rw [if_pos ⟨rfl, rfl, rfl⟩]
    unfold incInt
    rw [if_neg (by omega)]
    rfl
  refine nextLoop_spec _ _ 0 (S.setIterators (d.iterators + 1)) hn rfl rfl (Nat.zero_le _) hcount ?_
  show d.ht0.size - 0 + (d.ht1.size + 1) < d.ht0.size + d.ht1.size + 3
  omega

/-- **`dictNext`**, after an entry has been returned -/
theorem dictNext_spec (S : d.Shape ty) (hn : (d.entries.map (·.key)).Nodup) (A : Ahead d it l) :
    ∃ it', dictNext d it = .ok (l.head?, it', d) ∧ it'.index ≠ -1 ∧ it'.safe = it.safe ∧
      ∀ k l', l = k :: l' → Ahead d it' l' := by
  cases A with
  | @entry i pre suf he hi hc hnext =>
    obtain ⟨x, hx⟩ := Option.ne_none_iff_exists'.mp he
    unfold dictNext
    cases suf with
    | nil =>
      have hlt := (List.getElem?_eq_some_iff.mp hc).1
      rw [S.length_eq] at hlt
      have hstep : dictNextLoop (d.ht0.size + d.ht1.size + 3) d it =
          dictNextLoop (d.ht0.size + d.ht1.size + 2) d { it with entry := none } := by
        obtain ⟨b, n, safe, entry, nextEntry⟩ := it
        cases hx
        cases hnext
        rfl
      rw [hstep]
      have hcount : countIterator d { it with entry := none } = .ok d := by
        unfold countIterator
        rw [if_neg]
        · rfl
        · show ¬ (it.index = -1 ∧ _)
          omega
      have hindex : it.index = ((i + 1 : Nat) : Int) - 1 := by omega
      refine nextLoop_spec _ { it with entry := none } (i + 1) S hn rfl hindex hlt hcount ?_
      show bucketsLeft d it.table (i + 1) < _
      unfold bucketsLeft
      cases it.table with
      | false =>
        change d.ht0.size - (i + 1) + (d.ht1.size + 1) < _
        omega
      | true =>
        change d.ht1.size - (i + 1) + 0 < _
        omega
    | cons e suf =>
      have hnx := nextOf_append pre suf (nodup_bucket hn hc)
      refine ⟨{ it with entry := some e.key, nextEntry := suf.head?.map (·.key) }, ?_, ?_, rfl,
        fun k l' h => ?_⟩
      · have hnext' : it.nextEntry = some e.key := hnext
        rw [dictNextLoop, hx, hnext', hi]
        simp only [Dictht.chain_ok hc, ok_bind, hnx]
        rfl
      · show it.index ≠ -1
        omega
      · obtain ⟨rfl, rfl⟩ := List.cons.inj h
        rw [← List.singleton_append, ← List.append_assoc] at hc
        exact .entry nofun hi hc List.head?_map.symm

end

/-! ## calls under an iterator -/

theorem Ahead.sublist (A : Ahead d it l) : l.Sublist (d.entries.map (·.key)) := by
  have hlater : ∀ b i, (d.later b i).Sublist (d.entries.map (·.key)) := by
    intro b i
    have hsub : ((d.ht b).table.drop i).flatten.Sublist (d.ht b).entries := (List.drop_sublist i _).flatten
    unfold later entries
    rw [List.map_append]
    cases b with
    | false =>
      refine (hsub.map _).append ?_
      split
      · exact List.Sublist.refl _
      · exact List.nil_sublist _
    | true =>
      rw [if_neg (by simp), List.append_nil]
      exact (hsub.map _).trans (List.sublist_append_right _ _)
  cases A with
  | @entry i pre suf _ _ hc _ =>
    refine List.Sublist.trans ?_ (hlater it.table i)
    rw [later_bucket hc, List.map_append, List.append_assoc]
    exact List.sublist_append_right _ _

/-- a relation between lists that holds if it does piece by piece -/
structure Piecewise (R : List K → List K → Prop) : Prop where
  refl : ∀ a, R a a
  append : ∀ {a a' c c'}, R a a' → R c c' → R (a ++ c) (a' ++ c')

section
variable {R : List K → List K → Prop} {ch' : List (DictEntry K V)} {used : Nat}

/-- only one bucket is another one -/
theorem flatten_set_rel (hR : Piecewise R)
    (hch : R (ch.map (·.key)) (ch'.map (·.key))) {L : List (List (DictEntry K V))} (hc : L[j]? = some ch)
    (i : Nat) :
    R ((L.drop i).flatten.map (·.key)) (((L.set j ch').drop i).flatten.map (·.key)) := by
  rw [List.drop_set]
  by_cases hij : j < i
  · rw [if_pos hij]
    exact hR.refl _
  · rw [if_neg hij]
    have hc' : (L.drop i)[j - i]? = some ch := by
      rw [List.getElem?_drop, Nat.add_sub_cancel' (Nat.le_of_not_lt hij)]
      exact hc
    obtain ⟨hlt, hget⟩ := List.getElem?_eq_some_iff.mp hc'
    have hsplit : L.drop i = (L.drop i).take (j - i) ++ ch :: (L.drop i).drop (j - i + 1) := by
      rw [← hget, ← List.drop_eq_getElem_cons hlt, List.take_append_drop]
    rw [List.set_eq_take_append_cons_drop, if_pos hlt]
    nth_rewrite 1 [hsplit]
    simp only [List.flatten_append, List.flatten_cons, List.map_append]
    exact hR.append (hR.refl _) (hR.append hch (hR.refl _))

theorem later_put (hR : Piecewise R) (hch : R (ch.map (·.key)) (ch'.map (·.key)))
    (hc : (d.ht b).table[j]? = some ch) (table : Bool) (i : Nat) :
    R (d.later table i) ((d.put b j ch' used).later table i) := by
  have hset := fun i => flatten_set_rel hR hch hc i
  unfold later
  cases b with
  | false =>
    cases table with
    | false => exact hR.append (hset i) (hR.refl _)
    | true => exact hR.refl _
  | true =>
    cases table with
    | false =>
      refine hR.append (hR.refl _) ?_
      show R _ (if false = false ∧ d.isRehashing = true then _ else _)
      split
      · exact hset 0
      · exact hR.refl _
    | true => exact hR.append (hset i) (hR.refl _)

/-- a bucket changes, and not what is still to come of it -/
theorem Ahead.put (A : Ahead d it l) (hR : Piecewise R)
    (hch : R (ch.map (·.key)) (ch'.map (·.key))) (hc : (d.ht b).table[j]? = some ch)
    (hsuf : ∀ pre suf, ch = pre ++ suf → (∀ x ∈ suf, x.key ∈ l) →
      ∃ pre' suf', ch' = pre' ++ suf' ∧ suf'.map (·.key) = suf.map (·.key)) :
    ∃ l', Ahead (d.put b j ch' used) it l' ∧ R l l' := by
  cases A with
  | @entry i pre suf he hi hc₀ hn =>
    have hput : ∃ pre' suf' : List (DictEntry K V),
        ((d.put b j ch' used).ht it.table).table[i]? = some (pre' ++ suf') ∧
          suf'.map (·.key) = suf.map (·.key) := by
      by_cases hb : it.table = b
      · rw [hb] at hc₀ ⊢
        rw [put_table]
        by_cases hij : j = i
        · subst hij
          obtain ⟨pre', suf', rfl, hk⟩ := hsuf pre suf (Option.some.inj (hc.symm.trans hc₀))
            fun x hx => List.mem_append_left _ (List.mem_map_of_mem hx)
          exact ⟨pre', suf', List.getElem?_set_self (List.getElem?_eq_some_iff.mp hc).1, hk⟩
        · exact ⟨pre, suf, (List.getElem?_set_ne hij).trans hc₀, rfl⟩
      · refine ⟨pre, suf, ?_, rfl⟩
        rw [← hc₀]
        cases hb' : b <;> cases ht : it.table <;> first | rfl | exact absurd (ht.trans hb'.symm) hb
    obtain ⟨pre', suf', hc', hk⟩ := hput
    rw [← hk] at hn ⊢
    exact ⟨_, .entry he hi hc' hn, hR.append (hR.refl _) (later_put hR hch hc _ _)⟩

end

/-- a new key may be ahead or not -/
def MayAdd (key : K) (l l' : List K) : Prop := (∀ k ∈ l, k ∈ l') ∧ ∀ k ∈ l', k ∈ l ∨ k = key

theorem MayAdd.piecewise (key : K) : Piecewise (MayAdd key) where
  refl a := ⟨fun _ h => h, fun _ h => .inl h⟩
  append := by
    intro a a' c c' h h'
    constructor
    · intro k hk
      exact List.mem_append.mpr ((List.mem_append.mp hk).imp (h.1 k) (h'.1 k))
    · intro k hk
      rcases List.mem_append.mp hk with hk | hk
      · exact (h.2 k hk).imp_left (List.mem_append_left _)
      · exact (h'.2 k hk).imp_left (List.mem_append_right _)

theorem Ahead.push (A : Ahead d it l) (C : Change ty d (some (.bind key)) d1) :
    ∃ l', Ahead d1 it l' ∧ MayAdd key l l' := by
  cases C with
  | @push i key ch hc hi fresh =>
    refine A.put (MayAdd.piecewise key) ?_ hc fun pre suf h _ => ?_
    · exact ⟨fun k hk => List.mem_cons_of_mem _ hk, fun k hk => (List.mem_cons.mp hk).symm⟩
    · exact ⟨⟨key, none⟩ :: pre, suf, by rw [h]; rfl, rfl⟩

theorem Ahead.assign {val : V} (A : Ahead d it l) (C : Change ty d (some (.assign key val)) d1) :
    Ahead d1 it l := by
  cases C with
  | @assign b i pos ch e val hc hat =>
    have hkeys : (ch.set pos { e with val := some val }).map (·.key) = ch.map (·.key) := by
      obtain ⟨hlt, rfl⟩ := List.getElem?_eq_some_iff.mp hat
      rw [List.map_set]
      show (ch.map (·.key)).set pos (ch[pos].key) = _
      rw [← List.getElem_map (fun e : DictEntry K V => e.key) (h := by rwa [List.length_map])]
      exact List.set_getElem_self _
    have hsuf : ∀ pre suf, ch = pre ++ suf → (∀ x ∈ suf, x.key ∈ l) → ∃ pre' suf',
        ch.set pos { e with val := some val } = pre' ++ suf' ∧ suf'.map (·.key) = suf.map (·.key) := by
      intro pre suf h _
      refine ⟨(ch.set pos { e with val := some val }).take pre.length,
        (ch.set pos { e with val := some val }).drop pre.length, (List.take_append_drop _ _).symm, ?_⟩
      rw [List.map_drop, hkeys, h, List.map_append]
      exact List.drop_left' (List.length_map _)
    have hput : ∃ l',
        Ahead (d.put b i (ch.set pos { e with val := some val }) (d.ht b).used) it l' ∧ l = l' :=
      A.put ⟨fun _ => rfl, fun h h' => by rw [h, h']⟩ hkeys.symm hc hsuf
    obtain ⟨l', A', rfl⟩ := hput
    exact A'

/-- a key that is not ahead goes -/
theorem Ahead.unlink (A : Ahead d it l) (hl : key ∉ l)
    (C : Change ty d (some (.unbind key)) d1) : Ahead d1 it l := by
  cases C with
  | @unlink b i pos ch e hc hat =>
    have hsuf : ∀ pre suf, ch = pre ++ suf → (∀ x ∈ suf, x.key ∈ l) → ∃ pre' suf',
        ch.eraseIdx pos = pre' ++ suf' ∧ suf'.map (·.key) = suf.map (·.key) := by
      intro pre suf h hsuf
      have hpos : pos < pre.length := by
        by_contra hge
        rw [h, List.getElem?_append_right (Nat.le_of_not_lt hge)] at hat
        exact hl (hsuf e (List.mem_of_getElem? hat))
      exact ⟨pre.eraseIdx pos, suf, by rw [h, List.eraseIdx_append_of_lt_length hpos], rfl⟩
    -- where the key is not, nothing changes
    have hR : Piecewise fun a a' : List K => e.key ∉ a → a = a' := by
      refine ⟨fun _ _ => rfl, ?_⟩
      intro a a' c c' h h' hn
      rw [h fun hm => hn (List.mem_append_left _ hm), h' fun hm => hn (List.mem_append_right _ hm)]
    have hput : ∃ l', Ahead (d.put b i (ch.eraseIdx pos) ((d.ht b).used - 1)) it l' ∧ (e.key ∉ l → l = l') :=
      A.put hR (fun hn => absurd (List.mem_map_of_mem (List.mem_of_getElem? hat)) hn) hc hsuf
    obtain ⟨l', A', h⟩ := hput
    rw [h hl]
    exact A'

theorem Ahead.grown {canResize : Bool} (A : Ahead d it l) (S : d.Shape ty)
    (h : Grown canResize d d1) : Ahead d1 it l := by
  cases h with
  | rehashing => exact A
  | room => exact A
  | grow _ _ hx =>
    cases A with
    | @entry i pre suf he hi hc hn =>
      cases hx with
      | first hr h0 =>
        exfalso
        have h1 := S.of_not_rehashing hr
        cases hb : it.table with
        | false =>
          have hc' : d.ht0.table[i]? = some (pre ++ suf) := by rwa [hb] at hc
          rw [h0] at hc'
          cases hc'
        | true =>
          have hc' : d.ht1.table[i]? = some (pre ++ suf) := by rwa [hb] at hc
          rw [h1] at hc'
          cases hc'
      | @second n hr =>
        have h1 := S.of_not_rehashing hr
        cases hb : it.table with
        | true =>
          have hc' : d.ht1.table[i]? = some (pre ++ suf) := by rwa [hb] at hc
          rw [h1] at hc'
          cases hc'
        | false =>
          rw [hb] at hc
          have hlater : d.later false (i + 1) =
              Dict.later { d with ht1 := ⟨List.replicate n [], n, n - 1, 0⟩, rehashidx := 0 } false (i + 1) := by
            unfold later
            rw [if_neg (by rw [hr]; decide), if_pos ⟨rfl, rfl⟩, Dictht.entries_fresh]
            rfl
          have hc' : (Dict.ht { d with ht1 := ⟨List.replicate n [], n, n - 1, 0⟩, rehashidx := 0 }
              it.table).table[i]? = some (pre ++ suf) := by
            rw [hb]
            exact hc
          rw [hlater, ← hb]
          exact .entry he hi hc' hn

end Dict

/-! ## iterations -/

open Dict

section
variable {canResize : Bool} {d₀ d d' : Dict K V} {it it' : DictIterator K} {ks gone l : List K} {m₀ : DictMap K V}
  {mem : DictMem}

/-- An iteration over `d₀` that has returned the keys `ks`.  After the first `dictNext`, keys may be looked up,
added and given other values; a key that has been returned may be deleted, which is then in `gone`, and not
added again. -/
inductive Iterating [DecidableEq K] (ty : DictType K) (mem : DictMem) (canResize : Bool) (d₀ : Dict K V) :
    Dict K V → DictIterator K → List K → List K → Prop
  | start {it : DictIterator K} (e : dictGetSafeIterator mem = .ok it) :
      Iterating ty mem canResize d₀ d₀ it [] []
  | next {k : K} {it it' : DictIterator K} {d d' : Dict K V} {ks gone : List K}
      (h : Iterating ty mem canResize d₀ d it ks gone) (e : dictNext d it = .ok (some k, it', d')) :
      Iterating ty mem canResize d₀ d' it' (ks ++ [k]) gone
  | find {key : K} {it : DictIterator K} {d d' : Dict K V} {ks gone : List K} {r : Option EntryRef}
      (h : Iterating ty mem canResize d₀ d it ks gone) (hks : ks ≠ []) (e : dictFind ty d key = .ok (r, d')) :
      Iterating ty mem canResize d₀ d' it ks gone
  | add {key : K} {val : V} {it : DictIterator K} {d d' : Dict K V} {ks gone : List K} {r : Int}
      (h : Iterating ty mem canResize d₀ d it ks gone) (hks : ks ≠ []) (hk : key ∉ gone)
      (hu : d.count ≤ 536870912) (e : dictAdd ty mem canResize d key val = .ok (r, d')) :
      Iterating ty mem canResize d₀ d' it ks gone
  | replace {key : K} {val : V} {it : DictIterator K} {d d' : Dict K V} {ks gone : List K} {r : Int}
      (h : Iterating ty mem canResize d₀ d it ks gone) (hks : ks ≠ []) (hk : key ∉ gone)
      (hu : d.count ≤ 536870912) (e : dictReplace ty mem canResize d key val = .ok (r, d')) :
      Iterating ty mem canResize d₀ d' it ks gone
  | delete {k : K} {it : DictIterator K} {d d' : Dict K V} {ks gone : List K} {r : Int}
      (h : Iterating ty mem canResize d₀ d it ks gone) (hk : k ∈ ks)
      (e : dictGenericDelete ty d k = .ok (r, d')) : Iterating ty mem canResize d₀ d' it ks (k :: gone)

/-- what holds during an iteration over a dict that stands for `m₀` -/
structure Underway (ty : DictType K) (m₀ : DictMap K V) (d : Dict K V) (it : DictIterator K) (ks gone : List K)
    (m : DictMap K V) (l : List K) : Prop where
  model : Model ty d m
  iterators : d.iterators = 1
  safe : it.safe = true
  ahead : Ahead d it l
  nodup : ks.Nodup
  apart : ∀ k ∈ ks, k ∉ l
  all : ∀ k, m₀ k ≠ none → k ∈ ks ∨ k ∈ l
  bound : ∀ k ∈ ks, m k ≠ none ∨ k ∈ gone

namespace Underway
variable {m : DictMap K V} {l : List K} {key k : K}

theorem waits (U : Underway ty m₀ d it ks gone m l) : d.iterators ≠ 0 := by
  rw [U.iterators]
  decide

/-- the keys ahead are bound -/
theorem bound_of_ahead (U : Underway ty m₀ d it ks gone m l) (hk : k ∈ l) : m k ≠ none := by
  obtain ⟨e, he, rfl⟩ := List.mem_map.mp (U.ahead.sublist.subset hk)
  rw [U.model.maps.sound e he]
  exact Option.some_ne_none _

/-- the next key -/
theorem step (U : Underway ty m₀ d it ks gone m (k :: l)) (A : Ahead d it' l) (hs : it'.safe = true) :
    Underway ty m₀ d it' (ks ++ [k]) gone m l where
  model := U.model
  iterators := U.iterators
  safe := hs
  ahead := A
  nodup := by
    refine List.Nodup.append U.nodup (List.nodup_singleton k) fun x hx hxk => ?_
    rw [List.mem_singleton.mp hxk] at hx
    exact U.apart k hx List.mem_cons_self
  apart x hx hxl := by
    rcases List.mem_append.mp hx with hx | hx
    · exact U.apart x hx (List.mem_cons_of_mem _ hxl)
    · have hn := U.model.maps.nodup.sublist U.ahead.sublist
      exact (List.nodup_cons.mp hn).1 (List.mem_singleton.mp hx ▸ hxl)
  all x hx := by
    rcases U.all x hx with h | h
    · exact .inl (List.mem_append_left _ h)
    · rcases List.mem_cons.mp h with rfl | h
      · exact .inl (List.mem_append_right _ (List.mem_singleton_self x))
      · exact .inr h
  bound x hx := by
    rcases List.mem_append.mp hx with hx | hx
    · exact U.bound x hx
    · exact .inl (U.bound_of_ahead (by rw [List.mem_singleton.mp hx]; exact List.mem_cons_self))

/-- the dict grows, or gets a value -/
theorem same (U : Underway ty m₀ d it ks gone m l) {m' : DictMap K V} (M : Model ty d' m')
    (hi : d'.iterators = d.iterators) (A : Ahead d' it l) (hb : ∀ x, m x ≠ none → m' x ≠ none) :
    Underway ty m₀ d' it ks gone m' l :=
  { U with
    model := M
    iterators := hi.trans U.iterators
    ahead := A
    bound := fun x hx => (U.bound x hx).imp_left (hb x) }

variable [DecidableEq K]

theorem add (hm : mem.Grants) (U : Underway ty m₀ d it ks gone m l) (canResize : Bool) (hk : key ∉ gone)
    (hu : d.count ≤ 536870912) (val : V) :
    ∃ r d' m' l', dictAdd ty mem canResize d key val = .ok (r, d') ∧ Underway ty m₀ d' it ks gone m' l' := by
  obtain ⟨x, y, P, G, h⟩ := dictAddRaw_spec hm canResize U.model.shape hu key
  have hx := P.waits U.waits
  subst hx
  have Q := G.quiet ty
  have U₁ := U.same (Q.model U.model) Q.iterators (U.ahead.grown U.model.shape G) fun _ h => h
  rcases h with ⟨-, e⟩ | ⟨ref, z, hno, C, hat, e⟩
  · refine ⟨1, y, m, l, ?_, U₁⟩
    unfold dictAdd
    simp only [e, ok_bind, pure_ok]
  · obtain ⟨w, hset, C', -⟩ := dictSetVal_spec ty hat val
    obtain ⟨l', A, hsub, hnew⟩ := U₁.ahead.push C
    have hm : m key = none := U₁.model.maps.none_iff.mpr hno
    have U₂ : Underway ty m₀ z it ks gone (Function.update m key (some none)) l' :=
      { U₁ with
        model := C.model U₁.model
        iterators := C.iterators.trans U₁.iterators
        ahead := A
        apart := by
          intro k hk' hl'
          -- a key that has been returned is bound still, or deleted, and then it is not added again
          rcases hnew k hl' with h | rfl
          · exact U₁.apart k hk' h
          · exact (U₁.bound k hk').elim (fun h => h hm) hk
        all := fun k hk' => (U₁.all k hk').imp_right (hsub k)
        bound := fun k hk' => (U₁.bound k hk').imp_left update_ne }
    have U₃ := U₂.same (C'.model U₂.model) C'.iterators (A.assign C') fun _ => update_ne
    refine ⟨0, w, _, l', ?_, U₃⟩
    unfold dictAdd
    simp only [e, ok_bind, hset, pure_ok]

theorem replace (hm : mem.Grants) (U : Underway ty m₀ d it ks gone m l) (hk : key ∉ gone)
    (hu : d.count ≤ 536870912) {val : V} {r : Int} (e : dictReplace ty mem canResize d key val = .ok (r, d')) :
    ∃ m' l', Underway ty m₀ d' it ks gone m' l' := by
  obtain ⟨r₁, d₁, m₁, l₁, e₁, U₁⟩ := U.add hm canResize hk hu val
  unfold dictReplace at e
  simp only [e₁, ok_bind] at e
  by_cases hr : r₁ = 0
  · rw [if_pos hr] at e
    cases e
    exact ⟨m₁, l₁, U₁⟩
  · rw [if_neg hr] at e
    obtain ⟨x, P, h⟩ := dictFind_spec U₁.model.shape key
    have hx := P.waits U₁.waits
    subst hx
    rcases h with ⟨ref, y, hat, rfl, e₂⟩ | ⟨-, e₂⟩
    · obtain ⟨w, hset, C, -⟩ := dictSetVal_spec ty hat val
      simp only [e₂, ok_bind, hset] at e
      cases e
      exact ⟨_, l₁, U₁.same (C.model U₁.model) C.iterators (U₁.ahead.assign C) fun _ => update_ne⟩
    · simp only [e₂, ok_bind] at e
      cases e

theorem delete (U : Underway ty m₀ d it ks gone m l) (hk : k ∈ ks) :
    ∃ r d' m', dictGenericDelete ty d k = .ok (r, d') ∧ Underway ty m₀ d' it ks (k :: gone) m' l := by
  obtain ⟨x, P, h⟩ := dictGenericDelete_spec U.model.shape k
  have hx := P.waits U.waits
  subst hx
  rcases h with ⟨y, -, C, e⟩ | ⟨-, e⟩
  · refine ⟨0, y, _, e, { U with
      model := C.model U.model
      iterators := C.iterators.trans U.iterators
      ahead := U.ahead.unlink (U.apart k hk) C
      bound := fun z hz => ?_ }⟩
    by_cases hzk : z = k
    · exact .inr (hzk ▸ List.mem_cons_self)
    · refine (U.bound z hz).imp (fun h => ?_) (List.mem_cons_of_mem k)
      show Function.update m k none z ≠ none
      rwa [Function.update_of_ne hzk]
  · exact ⟨1, x, m, e, { U with bound := fun z hz => (U.bound z hz).imp_right (List.mem_cons_of_mem k) }⟩

end Underway

/-- Where an iteration is, with the keys `l` still to come: it has not begun, or it is underway. -/
inductive Phase (ty : DictType K) (mem : DictMem) (d₀ : Dict K V) (m₀ : DictMap K V) :
    Dict K V → DictIterator K → List K → List K → List K → Prop
  | fresh {it : DictIterator K} (e : dictGetSafeIterator mem = .ok it) :
      Phase ty mem d₀ m₀ d₀ it [] [] (d₀.entries.map (·.key))
  | underway {d : Dict K V} {it : DictIterator K} {ks gone l : List K} {m : DictMap K V}
      (U : Underway ty m₀ d it ks gone m l) : Phase ty mem d₀ m₀ d it ks gone l

namespace Phase

theorem nodup (S : Phase ty mem d₀ m₀ d it ks gone l) : ks.Nodup := by
  cases S with
  | fresh => exact List.nodup_nil
  | underway U => exact U.nodup

theorem model (S : Phase ty mem d₀ m₀ d it ks gone l) (M₀ : Model ty d₀ m₀) : ∃ m, Model ty d m := by
  cases S with
  | fresh => exact ⟨m₀, M₀⟩
  | underway U => exact ⟨_, U.model⟩

theorem all (S : Phase ty mem d₀ m₀ d it ks gone l) (M₀ : Model ty d₀ m₀) {k : K} (hk : m₀ k ≠ none) :
    k ∈ ks ∨ k ∈ l := by
  cases S with
  | fresh =>
    obtain ⟨e, he, rfl⟩ := M₀.maps.complete k hk
    exact .inr (List.mem_map_of_mem he)
  | underway U => exact U.all k hk

theorem release_counted (hi : it.index ≠ -1) (hs : it.safe = true) (h : d.iterators = 1) :
    (dictReleaseIterator d it).iterators = 0 := by
  unfold dictReleaseIterator
  rw [if_pos ⟨fun h => hi h.1, hs⟩]
  show d.iterators - 1 = 0
  rw [h]
  rfl

end Phase

variable [DecidableEq K]

/-- **`dictNext`**: it takes the first of the keys to come -/
theorem Phase.next (S : Phase ty mem d₀ m₀ d it ks gone l) (M₀ : Model ty d₀ m₀) (h₀ : d₀.iterators = 0) :
    ∃ it' d', dictNext d it = .ok (l.head?, it', d') ∧ (dictReleaseIterator d' it').iterators = 0 ∧
      ∀ k l', l = k :: l' → Phase ty mem d₀ m₀ d' it' (ks ++ [k]) gone l' := by
  cases S with
  | fresh e =>
    obtain ⟨it', hx, hi, hs, hA⟩ := dictNext_first e M₀.shape M₀.maps.nodup (by rw [h₀]; decide)
    rw [M₀.shape.later_zero] at hx hA
    have hcount : d₀.iterators + 1 = 1 := by rw [h₀]; rfl
    refine ⟨it', _, hx, release_counted hi hs hcount, fun k l' hl => ?_⟩
    have hn := M₀.maps.nodup
    rw [hl] at hn
    have hall : ∀ x, m₀ x ≠ none → x = k ∨ x ∈ l' := by
      intro x hx
      obtain ⟨e, he, rfl⟩ := M₀.maps.complete x hx
      exact List.mem_cons.mp (hl ▸ List.mem_map_of_mem he)
    have hbound : m₀ k ≠ none := by
      have hmem : k ∈ d₀.entries.map (·.key) := hl ▸ List.mem_cons_self
      obtain ⟨x, hx, rfl⟩ := List.mem_map.mp hmem
      rw [M₀.maps.sound x hx]
      exact Option.some_ne_none _
    exact .underway {
      model := ⟨M₀.shape.setIterators _, M₀.maps⟩
      iterators := hcount
      safe := hs
      ahead := hA k l' hl
      nodup := List.nodup_singleton k
      apart := fun x hx => List.mem_singleton.mp hx ▸ (List.nodup_cons.mp hn).1
      all := fun x hx => (hall x hx).imp_left List.mem_singleton.mpr
      bound := fun x hx => .inl (List.mem_singleton.mp hx ▸ hbound) }
  | underway U =>
    obtain ⟨it', hx, hi, hs, hA⟩ := dictNext_spec U.model.shape U.model.maps.nodup U.ahead
    have hs' := hs.trans U.safe
    refine ⟨it', d, hx, release_counted hi hs' U.iterators, ?_⟩
    rintro k l' rfl
    exact .underway (U.step (hA k l' rfl) hs')

/-- **`dictNext` alone brings an iteration to its end.** -/
theorem Iterating.finish (M₀ : Model ty d₀ m₀) (h₀ : d₀.iterators = 0)
    (h : Iterating ty mem canResize d₀ d it ks gone) (S : Phase ty mem d₀ m₀ d it ks gone l) :
    ∃ d₁ it₁ d₂ it₂, Iterating ty mem canResize d₀ d₁ it₁ (ks ++ l) gone ∧
      dictNext d₁ it₁ = .ok (none, it₂, d₂) := by
  induction l generalizing d it ks with
  | nil =>
    obtain ⟨it', d', e, -⟩ := S.next M₀ h₀
    exact ⟨d, it, d', it', by rwa [List.append_nil], e⟩
  | cons k l ih =>
    obtain ⟨it', d', e, -, hS⟩ := S.next M₀ h₀
    have hrest := ih (h.next e) (hS k l rfl)
    rwa [List.append_assoc] at hrest

end

end Critbit

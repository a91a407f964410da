import Critbit.Run.Paths

/-!
# `fill_depth`

On a tree `fill_depth` handles the depths of the leaves from left to right, one at a time
(`fillDepth_rep`, `tally`).  The array `array n f` has the entries `f 0 .. f (n-1)`, and a leaf at depth
`d` adds one to entry `d` if `d < n`, is reported if `n < d`, and writes behind the array if `d = n`
(`fillLeaf_array`).  So the histogram is exact as long as no leaf lies at depth `n`
(`depthsExact_iff`).
-/

namespace Crit.CTree
variable {A ι K V : Type*}

/-- the depths of the leaves from left to right, for a tree that hangs at depth `d` -/
def depths : CTree A ι K V → Nat → List Nat
  | leaf _ _ _, d => [d]
  | node _ _ c, d => (c false).depths (d + 1) ++ (c true).depths (d + 1)

theorem depths_node (a : A) (i : ι) (c : Bool → CTree A ι K V) (d : Nat) :
    (node a i c).depths d = (c false).depths (d + 1) ++ (c true).depths (d + 1) := rfl

/-- the leftmost leaf is not above the root -/
theorem depths_cons (t : CTree A ι K V) (d : Nat) : ∃ e l, t.depths d = e :: l ∧ d ≤ e := by
  induction t generalizing d with
  | leaf a k v => exact ⟨d, [], rfl, le_rfl⟩
  | node a i c ih =>
    obtain ⟨e, l, he, hle⟩ := ih false (d + 1)
    exact ⟨e, l ++ (c true).depths (d + 1), by rw [depths_node, he, List.cons_append], by omega⟩

variable [LinearOrder ι] {bit : K → ι → Bool}

/-- a leaf is as deep as the path of its key is long -/
theorem depths_path {t : CTree A ι K V} (h : t.WF bit) (d : Nat) :
    t.depths d = t.leaves.map fun l => d + (t.path bit l.2.1).length := by
  induction t generalizing d with
  | leaf a k v => rfl
  | node a i c ih =>
    have hside : ∀ e, (c e).leaves.map (fun l => d + 1 + ((c e).path bit l.2.1).length) =
        (c e).leaves.map fun l => d + ((node a i c).path bit l.2.1).length := by
      intro e
      apply List.map_congr_left
      intro l hl
      rw [path_node, h.forks.side e _ (mem_keys_of_leaf hl), List.length_cons]
      omega
    rw [depths_node, ih false (h.child false), ih true (h.child true), hside, hside,
      ← List.map_append]
    rfl

end Crit.CTree

namespace Critbit
open Crit CTree

/-! ## the array -/

/-- an array of `n` entries -/
def array (n : Nat) (f : Nat → Int) : List Int := (List.range n).map f

theorem array_get {n d : Nat} (f : Nat → Int) (hd : d < n) : (array n f)[d]? = some (f d) := by
  unfold array
  rw [List.getElem?_map, List.getElem?_range hd]
  rfl

theorem array_get_of_le {n d : Nat} (f : Nat → Int) (hd : n ≤ d) : (array n f)[d]? = none := by
  apply List.getElem?_eq_none
  unfold array
  rw [List.length_map, List.length_range]
  exact hd

theorem array_set {n d : Nat} (f : Nat → Int) (c : Int) :
    (array n f).set d c = array n (Function.update f d c) := by
  apply List.ext_getElem?
  intro e
  by_cases he : e < n
  · rw [array_get _ he]
    by_cases hed : e = d
    · subst hed
      rw [List.getElem?_set_self (by unfold array; simpa using he), Function.update_self]
    · rw [List.getElem?_set_ne (Ne.symm hed), array_get _ he, Function.update_of_ne hed]
  · rw [array_get_of_le _ (not_lt.mp he)]
    apply List.getElem?_eq_none
    rw [List.length_set]
    unfold array
    rw [List.length_map, List.length_range]
    omega

theorem array_zero (n : Nat) : List.replicate n (0 : Int) = array n fun _ => 0 := by
  unfold array
  rw [List.map_const', List.length_range]

/-- **What a leaf at depth `d` does to an array of `n` entries.** -/
theorem fillLeaf_array (n d : Nat) (f : Nat → Int) : fillLeaf d (array n f) n =
    if n < d then .ok (array n f, [(d : Int)])
    else if d = n then .error .bounds
    else if f d = 2147483647 then .error .overflow
    else .ok (array n (Function.update f d (f d + 1)), []) := by
  unfold fillLeaf
  by_cases h1 : n < d
  · have h1' : (n : Int) < d := by omega
    rw [if_pos h1, if_pos h1']
    rfl
  · have h1' : ¬ (n : Int) < d := by omega
    have h0 : ¬ (d : Int) < 0 := by omega
    rw [if_neg h1, if_neg h1']
    unfold increment
    rw [if_neg h0, Int.toNat_natCast]
    by_cases h2 : d = n
    · rw [if_pos h2, array_get_of_le f (by omega)]
      rfl
    · rw [if_neg h2, array_get f (by omega)]
      show (if f d = 2147483647 then _ else _) >>= _ = _
      by_cases h3 : f d = 2147483647
      · rw [if_pos h3, if_pos h3]
        rfl
      · rw [if_neg h3, if_neg h3, array_set]
        rfl

/-! ## one depth after another -/

/-- the leaves one at a time; `depth + 1` has overflowed on the way to a leaf that is too deep -/
def tally (n : Nat) : List Nat → List Int → M (List Int × List Int)
  | [], out => pure (out, [])
  | d :: ds, out =>
    if 2147483647 < d then .error .overflow
    else do
      let (out, l) ← fillLeaf d out n
      let (out, r) ← tally n ds out
      pure (out, l ++ r)

theorem tally_cons (n d : Nat) (ds : List Nat) (out : List Int) : tally n (d :: ds) out =
    if 2147483647 < d then .error .overflow
    else fillLeaf d out n >>= fun r => tally n ds r.1 >>= fun q => pure (q.1, r.2 ++ q.2) := rfl

theorem tally_append (n : Nat) (as bs : List Nat) (out : List Int) : tally n (as ++ bs) out =
    tally n as out >>= fun r => tally n bs r.1 >>= fun q => pure (q.1, r.2 ++ q.2) := by
  induction as generalizing out with
  | nil =>
    show tally n bs out = (tally n bs out >>= fun q => pure (q.1, [] ++ q.2))
    cases tally n bs out with
    | error e => rfl
    | ok q => rfl
  | cons d as ih =>
    rw [List.cons_append, tally_cons, tally_cons]
    by_cases hd : 2147483647 < d
    · rw [if_pos hd, if_pos hd]
      rfl
    · rw [if_neg hd, if_neg hd]
      cases fillLeaf d out n with
      | error e => rfl
      | ok r =>
        rw [ok_bind, ok_bind, ih]
        cases tally n as r.1 with
        | error e => rfl
        | ok q =>
          rw [ok_bind, ok_bind, pure_ok, ok_bind]
          show (tally n bs q.1 >>= _ ) >>= _ = _
          cases tally n bs q.1 with
          | error e => rfl
          | ok p =>
            rw [ok_bind, ok_bind, pure_ok, ok_bind, List.append_assoc]

theorem fillDepth_rep {h : Heap} {t : MTree} (hr : Rep h t) {fuel : Nat} (hf : t.forks < fuel)
    {d n : Nat} (hd : d ≤ 2147483647) (out : List Int) :
    fillDepth h fuel (ptr t) d out n = tally n (t.depths d) out := by
  induction t generalizing fuel d out with
  | leaf a k v =>
    obtain ⟨f, rfl⟩ := Nat.exists_eq_add_one_of_ne_zero (Nat.ne_zero_of_lt hf)
    show fillLeaf d out n = tally n [d] out
    rw [tally_cons, if_neg (not_lt.mpr hd)]
    cases fillLeaf d out n with
    | error e => rfl
    | ok r =>
      show _ = Except.ok (r.1, r.2 ++ [])
      rw [List.append_nil]
  | node a i c ih =>
    obtain ⟨f, rfl⟩ := Nat.exists_eq_add_one_of_ne_zero (Nat.ne_zero_of_lt hf)
    have e : fillDepth h (f + 1) (ptr (node a i c)) d out n =
        if 2147483647 < (d : Int) + 1 then .error .overflow
        else fillDepth h f (ptr (c false)) ((d + 1 : Nat) : Int) out n >>= fun r =>
          fillDepth h f (ptr (c true)) ((d + 1 : Nat) : Int) r.1 n >>= fun q =>
            pure (q.1, r.2 ++ q.2) := by
      show (h.node a >>= _) = _
      rw [Heap.node_ok hr.node, ok_bind]
      rfl
    rw [e, depths_node]
    by_cases hov : 2147483647 < (d : Int) + 1
    · -- the first leaf below is too deep
      obtain ⟨x, l, hx, hle⟩ := depths_cons (c false) (d + 1)
      rw [if_pos hov, hx, List.cons_append, tally_cons, if_pos (by omega)]
    · have hd' : d + 1 ≤ 2147483647 := by omega
      rw [if_neg hov, tally_append, ih false (hr.child _) (forks_lt_child hf _) hd']
      cases tally n ((c false).depths (d + 1)) out with
      | error e => rfl
      | ok r => rw [ok_bind, ok_bind, ih true (hr.child _) (forks_lt_child hf _) hd']

/-- when a run over the leaves at the depths `ds` is safe: none at the end of the array, none too
deep to be counted, and no entry overflows -/
structure Fits (n : Nat) (ds : List Nat) (f : Nat → Int) : Prop where
  deep : ∀ d ∈ ds, d ≤ 2147483647
  edge : n ∉ ds
  room : ∀ d < n, f d + ds.count d ≤ 2147483647

theorem array_congr {n : Nat} {f g : Nat → Int} (h : ∀ d < n, f d = g d) : array n f = array n g := by
  unfold array
  apply List.map_congr_left
  intro d hd
  exact h d (List.mem_range.mp hd)

/-- one more leaf: it is beyond the array, or its entry has room -/
theorem fits_cons {n e : Nat} {ds : List Nat} {f : Nat → Int} : Fits n (e :: ds) f ↔
    e ≤ 2147483647 ∧ e ≠ n ∧ (n < e ∧ Fits n ds f ∨
      e < n ∧ Fits n ds (Function.update f e (f e + 1))) := by
  have hcount : ∀ d, ((e :: ds).count d : Int) = ds.count d + if d = e then 1 else 0 := by
    intro d
    rw [List.count_cons]
    by_cases hd : d = e
    · subst hd
      simp
    · simp [hd, Ne.symm hd]
  have hupd : ∀ d, Function.update f e (f e + 1) d = f d + if d = e then 1 else 0 := by
    intro d
    by_cases hd : d = e
    · subst hd
      simp
    · simp [hd]
  constructor
  · intro hf
    have hne : e ≠ n := fun h => hf.edge (h ▸ List.mem_cons_self)
    have hdeep : ∀ d ∈ ds, d ≤ 2147483647 := fun d hd => hf.deep d (List.mem_cons_of_mem _ hd)
    have hedge : n ∉ ds := fun h => hf.edge (List.mem_cons_of_mem _ h)
    refine ⟨hf.deep e List.mem_cons_self, hne, ?_⟩
    rcases lt_or_gt_of_ne hne with hlt | hlt
    · refine .inr ⟨hlt, hdeep, hedge, fun d hd => ?_⟩
      have hr := hf.room d hd
      rw [hcount] at hr
      rw [hupd]
      omega
    · refine .inl ⟨hlt, hdeep, hedge, fun d hd => ?_⟩
      have hr := hf.room d hd
      rw [hcount, if_neg (by omega)] at hr
      omega
  · intro hf
    obtain ⟨hmax, hne, hf⟩ := hf
    have hmem : ∀ {P : Nat → Prop}, P e → (∀ d ∈ ds, P d) → ∀ d ∈ e :: ds, P d := by
      intro P he hds d hd
      rcases List.mem_cons.mp hd with rfl | hd
      · exact he
      · exact hds d hd
    rcases hf with ⟨hlt, hf⟩ | ⟨hlt, hf⟩
    · refine ⟨hmem hmax hf.deep, ?_, fun d hd => ?_⟩
      · rw [List.mem_cons]
        exact fun h => h.elim (fun h => hne h.symm) hf.edge
      · have hr := hf.room d hd
        rw [hcount, if_neg (by omega)]
        omega
    · refine ⟨hmem hmax hf.deep, ?_, fun d hd => ?_⟩
      · rw [List.mem_cons]
        exact fun h => h.elim (fun h => hne h.symm) hf.edge
      · have hr := hf.room d hd
        rw [hupd] at hr
        rw [hcount]
        omega

/-- the counts after the leaves have been handled -/
theorem tally_ok {n : Nat} {ds : List Nat} {f : Nat → Int} (hf : Fits n ds f) :
    tally n ds (array n f) = .ok (array n fun d => f d + ds.count d,
      List.map Nat.cast (ds.filter (n < ·))) := by
  induction ds generalizing f with
  | nil =>
    show Except.ok (array n f, []) = _
    rw [array_congr fun d _ => show f d = f d + ([] : List Nat).count d by simp]
    rfl
  | cons e ds ih =>
    obtain ⟨hmax, hne, hf'⟩ := fits_cons.mp hf
    rw [tally_cons, if_neg (not_lt.mpr hmax), fillLeaf_array]
    rcases hf' with ⟨hlt, hf'⟩ | ⟨hlt, hf'⟩
    · rw [if_pos hlt, ok_bind, ih hf', ok_bind, List.filter_cons_of_pos (by simpa using hlt)]
      rw [array_congr fun d hd => show f d + ds.count d = f d + (e :: ds).count d by
        rw [List.count_cons_of_ne (by omega)]]
      rfl
    · have hroom := hf.room e hlt
      rw [List.count_cons_self] at hroom
      rw [if_neg (by omega), if_neg hne, if_neg (by omega), ok_bind, ih hf', ok_bind,
        List.filter_cons_of_neg (by simp; omega)]
      rw [array_congr fun d hd => show Function.update f e (f e + 1) d + ds.count d =
          f d + (e :: ds).count d by
        by_cases hde : d = e
        · subst hde
          rw [Function.update_self, List.count_cons_self]
          omega
        · rw [Function.update_of_ne hde, List.count_cons_of_ne (Ne.symm hde)]]
      rfl

/-- a run that comes to an end was safe -/
theorem fits_of_tally {n : Nat} {ds : List Nat} {f : Nat → Int} {r : List Int × List Int}
    (hf : ∀ d < n, f d ≤ 2147483647) (e : tally n ds (array n f) = .ok r) : Fits n ds f := by
  induction ds generalizing f r with
  | nil =>
    refine ⟨fun d hd => absurd hd List.not_mem_nil, List.not_mem_nil, fun d hd => ?_⟩
    rw [List.count_nil]
    have := hf d hd
    omega
  | cons x ds ih =>
    rw [tally_cons, fillLeaf_array] at e
    by_cases hmax : 2147483647 < x
    · rw [if_pos hmax] at e
      cases e
    rw [if_neg hmax] at e
    by_cases hlt : n < x
    · rw [if_pos hlt, ok_bind] at e
      cases ht : tally n ds (array n f) with
      | error err =>
        rw [ht] at e
        cases e
      | ok q => exact fits_cons.mpr ⟨not_lt.mp hmax, ne_of_gt hlt, .inl ⟨hlt, ih hf ht⟩⟩
    rw [if_neg hlt] at e
    by_cases hne : x = n
    · rw [if_pos hne] at e
      cases e
    rw [if_neg hne] at e
    have hxn : x < n := by omega
    by_cases hov : f x = 2147483647
    · rw [if_pos hov] at e
      cases e
    rw [if_neg hov, ok_bind] at e
    cases ht : tally n ds (array n (Function.update f x (f x + 1))) with
    | error err =>
      rw [ht] at e
      cases e
    | ok q =>
      refine fits_cons.mpr ⟨not_lt.mp hmax, hne, .inr ⟨hxn, ih (fun d hd => ?_) ht⟩⟩
      by_cases hdx : d = x
      · subst hdx
        have := hf d hd
        rw [Function.update_self]
        omega
      · rw [Function.update_of_ne hdx]
        exact hf d hd

/-! ## the leaves in the heap -/

/-- the leaves that lie under exactly `d` nodes -/
def leavesAt (h : Heap) (head : Ptr) (d : Nat) : Set Addr :=
  {s | Below h head (.str s) ∧ (nodesAbove h head s).ncard = d}

section
variable {h : Heap} {t : MTree}

theorem mem_leavesAt (hr : Rep h t) (hg : Good t) (hn : t.annots.Nodup) {s : Addr} {d : Nat} :
    s ∈ leavesAt h (ptr t) d ↔
      ∃ l ∈ t.leaves, l.1 = s ∧ (t.path Key.bit l.2.1).length = d := by
  constructor
  · intro hs
    obtain ⟨k, v, hl, -⟩ := below_str hr hs.1
    refine ⟨_, hl, rfl, ?_⟩
    rw [← nodesAbove_ncard hr hg hn hl]
    exact hs.2
  · intro hs
    obtain ⟨l, hl, rfl, hd⟩ := hs
    refine ⟨below_leaf hr hl, ?_⟩
    rw [nodesAbove_ncard hr hg hn hl, hd]

theorem mem_depths (hw : t.WF Key.bit) {d : Nat} :
    d ∈ t.depths 0 ↔ ∃ l ∈ t.leaves, (t.path Key.bit l.2.1).length = d := by
  rw [depths_path hw]
  simp only [List.mem_map, Nat.zero_add]

theorem leavesAt_eq_empty (hr : Rep h t) (hg : Good t) (hn : t.annots.Nodup) {d : Nat} :
    leavesAt h (ptr t) d = ∅ ↔ d ∉ t.depths 0 := by
  rw [Set.eq_empty_iff_forall_notMem, mem_depths hg.wf]
  constructor
  · intro he hd
    obtain ⟨l, hl, e⟩ := hd
    exact he l.1 ((mem_leavesAt hr hg hn).mpr ⟨l, hl, rfl, e⟩)
  · intro hd s hs
    obtain ⟨l, hl, -, e⟩ := (mem_leavesAt hr hg hn).mp hs
    exact hd ⟨l, hl, e⟩

theorem leavesAt_ncard (hr : Rep h t) (hg : Good t) (hn : t.annots.Nodup) (d : Nat) :
    (leavesAt h (ptr t) d).ncard = (t.depths 0).count d := by
  have e : leavesAt h (ptr t) d = {s | s ∈
      (t.leaves.filter fun l => (t.path Key.bit l.2.1).length == d).map Prod.fst} := by
    ext s
    rw [mem_leavesAt hr hg hn]
    simp only [Set.mem_ofPred_eq, List.mem_map, List.mem_filter, beq_iff_eq]
    constructor
    · intro hs
      obtain ⟨l, hl, hs, hd⟩ := hs
      exact ⟨l, ⟨hl, hd⟩, hs⟩
    · intro hs
      obtain ⟨l, ⟨hl, hd⟩, hs⟩ := hs
      exact ⟨l, hl, hs, hd⟩
  have hnd : ((t.leaves.filter fun l => (t.path Key.bit l.2.1).length == d).map Prod.fst).Nodup :=
    ((List.filter_sublist.map Prod.fst).trans (leaves_sublist t)).nodup hn
  rw [e, ncard_list hnd, List.length_map, depths_path hg.wf, List.count_eq_countP, List.countP_map,
    List.countP_eq_length_filter]
  congr 1
  apply List.filter_congr
  intro l _
  show _ = (0 + _ == d)
  rw [Nat.zero_add]

end

/-! ## the histogram -/

/-- What `fill_depth` is to do with a zeroed array of `n` entries: it stays within the array, counts
the leaves at each depth below `n`, and reports the depths of the others. -/
def DepthsExact (h : Heap) (head : Ptr) (n : Nat) : Prop :=
  ∃ out rep, fillDepth h (h.size + 1) head 0 (List.replicate n 0) n = .ok (out, rep) ∧
    out.length = n ∧ (∀ d < n, out[d]? = some ((leavesAt h head d).ncard : Int)) ∧
    (∀ x ∈ rep, (n : Int) ≤ x) ∧ ∀ d : Nat, n ≤ d → rep.count (d : Int) = (leavesAt h head d).ncard

theorem depthsExact_tree {h : Heap} {root : Addr} {t : MTree} (O : Owns h root (some t)) (n : Nat) :
    DepthsExact h (ptr t) n ↔ Fits n (t.depths 0) fun _ => 0 := by
  have hr := O.rep t rfl
  have hg := O.good t rfl
  have hn : t.annots.Nodup := (List.nodup_cons.mp O.nodup).2
  have hfill : fillDepth h (h.size + 1) (ptr t) 0 (List.replicate n 0) n =
      tally n (t.depths 0) (array n fun _ => 0) := by
    rw [array_zero]
    exact fillDepth_rep hr (Nat.lt_succ_of_lt O.forks_lt) (d := 0) (by omega) _
  constructor
  · intro hd
    obtain ⟨out, rep, e, -⟩ := hd
    rw [hfill] at e
    exact fits_of_tally (fun d _ => by omega) e
  · intro hf
    refine ⟨_, _, hfill.trans (tally_ok hf), ?_, fun d hd => ?_, fun x hx => ?_, fun d hd => ?_⟩
    · unfold array
      rw [List.length_map, List.length_range]
    · rw [array_get _ hd, leavesAt_ncard hr hg hn, zero_add]
    · obtain ⟨d, hd, rfl⟩ := List.mem_map.mp hx
      have hlt : n < d := by simpa using (List.mem_filter.mp hd).2
      omega
    · rw [leavesAt_ncard hr hg hn, List.count_map_of_injective _ _ Nat.cast_injective]
      rcases Nat.lt_or_ge n d with hlt | hge
      · exact List.count_filter (by simpa using hlt)
      · have hdn : d = n := by omega
        rw [hdn, List.count_eq_zero.mpr hf.edge, List.count_eq_zero]
        exact fun hmem => hf.edge (List.mem_of_mem_filter hmem)

/-- **The histogram is exact and in bounds exactly if no leaf lies under `n` nodes**, as long as
`int` can hold the counts and the depths. -/
theorem depthsExact_iff {root : Addr} {h : Heap} {m : Map} (hr : Reached root h m)
    (hne : ∃ x, m x ≠ none) (n : Nat) : ∃ r, h.root root = .ok r ∧
      (DepthsExact h r.head n ↔ leavesAt h r.head n = ∅ ∧
        (∀ d < n, (leavesAt h r.head d).ncard ≤ 2147483647) ∧
        ∀ d, 2147483647 < d → leavesAt h r.head d = ∅) := by
  obtain ⟨T, O, rfl⟩ := hr.owns
  obtain ⟨t, rfl⟩ := Option.ne_none_iff_exists'.mp (exists_bound.mp hne)
  obtain ⟨r, hroot, hp⟩ := O.record
  have hrep := O.rep t rfl
  have hg := O.good t rfl
  have hn : t.annots.Nodup := (List.nodup_cons.mp O.nodup).2
  refine ⟨r, Heap.root_ok hroot, ?_⟩
  rw [hp, show ptrOf (some t) = ptr t from rfl, depthsExact_tree O]
  simp only [leavesAt_eq_empty hrep hg hn, leavesAt_ncard hrep hg hn]
  constructor
  · intro hf
    refine ⟨hf.edge, fun d hd => ?_, fun d hd hmem => ?_⟩
    · have := hf.room d hd
      omega
    · have := hf.deep d hmem
      omega
  · intro hf
    refine ⟨fun d hd => not_lt.mp fun hlt => hf.2.2 d hlt hd, hf.1, fun d hd => ?_⟩
    have := hf.2.1 d hd
    omega

theorem depthsExact_two : ∃ (h : Heap) (r : Root),
    Reached 0 h (bindAll Map.empty [(⟨[97], by decide⟩, 5), (⟨[97, 98], by decide⟩, 6)]) ∧
    h.root 0 = .ok r ∧ (DepthsExact h r.head 2 ↔ leavesAt h r.head 2 = ∅ ∧
      (∀ d < 2, (leavesAt h r.head d).ncard ≤ 2147483647) ∧
      ∀ d, 2147483647 < d → leavesAt h r.head d = ∅) := by
  obtain ⟨h, hr⟩ := reached_two
  obtain ⟨r, hroot, e⟩ := depthsExact_iff hr ⟨⟨[97], by decide⟩, by decide⟩ 2
  exact ⟨h, r, hr, hroot, e⟩

/-! ## two keys and an array of one entry -/

theorem depths_leaf {t : MTree} (ht : t.forks = 0) (d : Nat) : t.depths d = [d] := by
  cases t with
  | leaf a k v => rfl
  | node a i c =>
    unfold forks at ht
    omega

/-- two keys hang from one node -/
theorem depths_two {t : MTree} (ht : t.forks = 1) : t.depths 0 = [1, 1] := by
  cases t with
  | leaf a k v => cases ht
  | node a i c =>
    unfold forks at ht
    rw [depths_node, depths_leaf (by omega), depths_leaf (by omega)]
    rfl

/-- only keys of the list are bound -/
theorem mem_of_bindAll {m : Map} {l : List (Key × Val)} {x : Key} (h : bindAll m l x ≠ none) :
    m x ≠ none ∨ x ∈ l.map Prod.fst := by
  induction l generalizing m with
  | nil => exact .inl h
  | cons b l ih =>
    rcases ih h with h1 | h1
    · by_cases e : x = b.1
      · rw [e]
        exact .inr List.mem_cons_self
      · have e' : (m.insert true b.1 b.2).2 x = m x := Map.insert_of_ne e
        exact .inl (e' ▸ h1)
    · exact .inr (List.mem_cons_of_mem _ h1)

theorem not_depthsExact_edge :
    ¬ ∀ (root : Addr) (h : Heap) (m : Map) (r : Root) (n : Nat), Reached root h m →
      (∃ x, m x ≠ none) → h.root root = .ok r → DepthsExact h r.head n := by
  intro H
  obtain ⟨h, hr⟩ := reached_two
  have hall : ∀ r, h.root 0 = .ok r → DepthsExact h r.head 1 := fun r =>
    H 0 h _ r 1 hr ⟨⟨[97], by decide⟩, by decide⟩
  obtain ⟨T, O, hT⟩ := hr.owns
  have hbound : ∀ k, k ∈ keysOf T ↔ valueOf T k ≠ none := fun k =>
    not_iff_not.mp (by rw [not_not]; exact valueOf_eq_none.symm)
  have hmem : ∀ k ∈ [(⟨[97], by decide⟩ : Key), ⟨[97, 98], by decide⟩], k ∈ keysOf T := by
    intro k hk
    rw [hbound, hT]
    rcases List.mem_pair.mp hk with rfl | rfl
    · decide
    · decide
  have hsub : keysOf T ⊆ [(⟨[97], by decide⟩ : Key), ⟨[97, 98], by decide⟩] := by
    intro k hk
    rw [hbound, hT] at hk
    exact (mem_of_bindAll hk).resolve_left fun h1 => h1 rfl
  cases T with
  | none => exact absurd (hmem _ List.mem_cons_self) List.not_mem_nil
  | some t =>
    obtain ⟨r, hroot, hp⟩ := O.record
    have hlow := List.Nodup.length_le_of_subset (by decide) hmem
    have hup := (nodup_keysOf O.good).length_le_of_subset hsub
    have hf : t.forks + 1 = (keysOf (some t)).length := forks_succ t
    have hf1 : t.forks = 1 := by
      simp only [List.length_cons, List.length_nil] at hlow hup
      omega
    have hd := hall r (Heap.root_ok hroot)
    rw [hp, show ptrOf (some t) = ptr t from rfl, depthsExact_tree O, depths_two hf1] at hd
    exact hd.edge List.mem_cons_self

end Critbit

import Critbit.Source.Ops

/-!
# The loops of the code, with the nodes they read

Each of the three walks down the tree, with a list of the nodes whose fields it reads, in order.
Dropping the list gives the loop back (`findNearestLoop_trace`, `spliceLoop_trace`,
`deleteLoop_trace`), in every heap and for all arguments.

`visit` is the order in which `clear_node` and `fill_depth` meet the leaves.
-/

namespace Critbit

def findNearestTrace (h : Heap) (bytes : List UInt8) (bytelen : Nat) :
    Nat → Ptr → M (List Addr × Ptr)
  | 0, _ => .error .diverge
  | fuel + 1, .node a => do
    let node ← h.node a
    let dir ← getDirection node bytes bytelen
    let r ← findNearestTrace h bytes bytelen fuel (node.child dir)
    pure (a :: r.1, r.2)
  | _ + 1, p => pure ([], p)

/-- the node at which the walk breaks off is read too -/
def spliceTrace (h : Heap) (bytes : List UInt8) (bytelen newbyte : Nat) (otherbits : UInt8) :
    Nat → Slot → M (List Addr × Slot)
  | 0, _ => .error .diverge
  | fuel + 1, wherep => do
    let p ← h.load wherep
    match p with
    | .node a => do
      let q ← h.node a
      if newbyte < uint32 q.byte then pure ([a], wherep)
      else if uint32 q.byte = newbyte ∧ otherbits < q.otherbits then pure ([a], wherep)
      else do
        let dir ← getDirection q bytes bytelen
        let r ← spliceTrace h bytes bytelen newbyte otherbits fuel (.child a dir)
        pure (a :: r.1, r.2)
    | _ => pure ([], wherep)

def deleteTrace (h : Heap) (bytes : List UInt8) (bytelen : Nat) :
    Nat → Ptr → Slot → Option (Slot × Addr × Bool) →
      M (List Addr × Ptr × Option (Slot × Addr × Bool))
  | 0, _, _, _ => .error .diverge
  | fuel + 1, .node a, wherep, _ => do
    let q ← h.node a
    let dir ← getDirection q bytes bytelen
    let r ← deleteTrace h bytes bytelen fuel (q.child dir) (.child a dir) (some (wherep, a, dir))
    pure (a :: r.1, r.2)
  | _ + 1, p, _, up => pure ([], p, up)

/-- the strings below a pointer, `child[0]` before `child[1]` -/
def visit (h : Heap) : Nat → Ptr → M (List Str)
  | 0, _ => .error .diverge
  | _ + 1, .null => pure []
  | _ + 1, .str a => do
    let s ← h.str (.str a)
    pure [s]
  | fuel + 1, .node a => do
    let node ← h.node a
    let l ← visit h fuel (node.child false)
    let r ← visit h fuel (node.child true)
    pure (l ++ r)

/-! ## the loops themselves -/

/-- a recorded node does not change the result -/
theorem map_snd_bind {α : Type} (x : M (List Addr × α)) (a : Addr) :
    (x >>= fun r => pure (a :: r.1, r.2)).map Prod.snd = x.map Prod.snd := by
  cases x with
  | error e => rfl
  | ok r => rfl

section
variable (h : Heap) (bytes : List UInt8) (bytelen : Nat)

theorem findNearestLoop_trace (fuel : Nat) (p : Ptr) :
    findNearestLoop h bytes bytelen fuel p =
      (findNearestTrace h bytes bytelen fuel p).map Prod.snd := by
  induction fuel generalizing p with
  | zero => rfl
  | succ fuel ih =>
    cases p with
    | null => rfl
    | str a => rfl
    | node a =>
      rw [findNearestLoop, findNearestTrace]
      cases h.node a with
      | error e => rfl
      | ok n =>
        rw [ok_bind, ok_bind]
        cases getDirection n bytes bytelen with
        | error e => rfl
        | ok d => rw [ok_bind, ok_bind, map_snd_bind, ih]

theorem spliceLoop_trace (newbyte : Nat) (otherbits : UInt8) (fuel : Nat) (s : Slot) :
    spliceLoop h bytes bytelen newbyte otherbits fuel s =
      (spliceTrace h bytes bytelen newbyte otherbits fuel s).map Prod.snd := by
  induction fuel generalizing s with
  | zero => rfl
  | succ fuel ih =>
    rw [spliceLoop, spliceTrace]
    cases h.load s with
    | error e => rfl
    | ok p =>
      rw [ok_bind, ok_bind]
      cases p with
      | null => rfl
      | str a => rfl
      | node a =>
        show (h.node a >>= _) = Except.map _ (h.node a >>= _)
        cases h.node a with
        | error e => rfl
        | ok n =>
          rw [ok_bind, ok_bind]
          by_cases h1 : newbyte < uint32 n.byte
          · rw [if_pos h1, if_pos h1]; rfl
          · rw [if_neg h1, if_neg h1]
            by_cases h2 : uint32 n.byte = newbyte ∧ otherbits < n.otherbits
            · rw [if_pos h2, if_pos h2]; rfl
            · rw [if_neg h2, if_neg h2]
              cases getDirection n bytes bytelen with
              | error e => rfl
              | ok d => rw [ok_bind, ok_bind, map_snd_bind, ih]

theorem deleteLoop_trace (fuel : Nat) (p : Ptr) (s : Slot) (up : Option (Slot × Addr × Bool)) :
    deleteLoop h bytes bytelen fuel p s up =
      (deleteTrace h bytes bytelen fuel p s up).map Prod.snd := by
  induction fuel generalizing p s up with
  | zero => rfl
  | succ fuel ih =>
    cases p with
    | null => rfl
    | str a => rfl
    | node a =>
      rw [deleteLoop, deleteTrace]
      cases h.node a with
      | error e => rfl
      | ok n =>
        rw [ok_bind, ok_bind]
        cases getDirection n bytes bytelen with
        | error e => rfl
        | ok d => rw [ok_bind, ok_bind, map_snd_bind, ih]

end

end Critbit

import Armator.Lib.Block

/-!
# Several cells of a block

Accesses to cells that stand one behind the other, in ascending order: reads, writes, and copies
within a block as `*dest++ = *source++` makes them, forwards. `resize` is `realloc`.
-/

namespace Armator.Lib.Block

variable {α : Type} [Inhabited α]

/-- `b[i]`, .., `b[i + n - 1]` -/
def loads (b : Block α) : Nat → Nat → Except Fault (List α)
  | _, 0 => .ok []
  | i, n + 1 => do
    let a ← b.load i
    let l ← b.loads (i + 1) n
    .ok (a :: l)

/-- `b[i] = l[0]`, `b[i + 1] = l[1]`, .. -/
def stores : Block α → Nat → List α → Except Fault (Block α)
  | b, _, [] => .ok b
  | b, i, a :: l => do
    let b ← b.store i a
    b.stores (i + 1) l

/-- `*dest++ = *source++`, so many times -/
def moves : Block α → Nat → Nat → Nat → Except Fault (Block α)
  | b, 0, _, _ => .ok b
  | b, n + 1, dest, source => do
    let a ← b.load source
    let b ← b.store dest a
    b.moves n (dest + 1) (source + 1)

/-- The cells behind the old ones are not set. -/
def resize (b : Block α) (size : Nat) (junk : Nat → α) : Block α :=
  ⟨(List.range size).map fun i => if i < b.size then b.get i else junk i⟩

variable {b : Block α} {i n dest source : Nat} {a : α} {l : List α}

end Armator.Lib.Block

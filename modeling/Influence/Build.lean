/-! # Builds

Sizes are machine words, and a table takes up memory.  What becomes of a size that no word can hold,
and of a read beyond a table, depends on how the library has been built.  A `Build` says so.

| Build | A size of `2 ^ 64` or more | A new table of `2 ^ 60` cells or more | A read beyond a table |
|---|---|---|---|
| `Build.release` | wraps around | stops the program | stops the program |
| `Build.bounded` | is kept | stops the program | gives zero |
| `Exact.build` | is kept | is made | gives zero |

The program that runs is the release build, which is what every definition means where no build is
named.  The other two say what the release build computes as long as no size is too large: a bounded
run that does not stop is the run that the release build makes, and it is the run in which sizes are
numbers and memory is endless. -/

namespace Influence

/-- The number of cells from which on a list cannot be allocated: a cell takes up eight bytes, and a
list fewer than `2 ^ 63`. -/
def Build.room : Nat := UInt64.size / 16

/-- How sizes are kept and what a table may take up. -/
class Build where
  /-- The word in which a size is kept.  Sums and products of words are those of the sizes up to a
  multiple of `2 ^ 64`, so it is enough to take the word where a size is used. -/
  word : Nat → Nat
  /-- Whether a list of so many cells can be allocated. -/
  holds : Nat → Bool
  /-- There is always room for a short list. -/
  holds_of_lt : ∀ n < Build.room, holds n
  /-- The size of a list that can be allocated is kept as it is, and so is a place in it. -/
  word_of_holds : ∀ n, holds n → ∀ i ≤ n, word i = i
  /-- Whether a read beyond a list stops the program. -/
  strict : Bool

namespace Build

/-- The build that runs. -/
instance release : Build where
  word n := n % UInt64.size
  holds n := n < room
  holds_of_lt _ h := decide_eq_true h
  word_of_holds _ h _ hle :=
    Nat.mod_eq_of_lt (Nat.lt_of_le_of_lt hle (Nat.lt_trans (of_decide_eq_true h) (by decide)))
  strict := true

/-- The build in which sizes are numbers and lists are as in the release build. -/
@[reducible] def bounded : Build where
  word n := n
  holds n := n < room
  holds_of_lt _ h := decide_eq_true h
  word_of_holds _ _ _ _ := rfl
  strict := false

end Build

namespace Exact

/-- The build in which sizes are numbers and every list can be allocated. -/
scoped instance (priority := high) build : Build where
  word n := n
  holds _ := true
  holds_of_lt _ _ := rfl
  word_of_holds _ _ _ _ := rfl
  strict := false

end Exact

end Influence

/-! # Draws from random words

    Sampling takes its source of draws as an argument, and what it promises it
    promises of any source that draws uniformly and independently.  This is the
    source with which the program is run: it reads 64-bit words that are given to
    it, and uses or refuses each of them by the rule of the random number library,
    so that the samples can be compared word by word. -/

namespace SlotSymmetry

/-- The random words that are left, and the number of words used.  When the list is at its
    end, zeros follow. -/
structure Words where
  left : List Nat
  used : Nat

namespace Words

/-- The largest low half of a product for which a word is used: the largest multiple of
    `size` by a power of two below `2 ^ 64`, less one. -/
def zone (size : Nat) : Nat := size <<< (63 - size.log2) - 1

/-- An index below `size`: the high half of the product of `size` and the first word whose
    low half is small enough to make all indices equally likely. -/
def drawFrom (size : Nat) : List Nat → Nat → Nat × Words
  | [], used => (0, ⟨[], used + 1⟩)
  | word :: words, used =>
      if word * size % UInt64.size ≤ zone size then
        (word * size / UInt64.size, ⟨words, used + 1⟩)
      else drawFrom size words (used + 1)

/-- A draw from the words that are left. -/
def draw (size : Nat) : StateM Words Nat := fun w => drawFrom size w.left w.used

end Words

end SlotSymmetry

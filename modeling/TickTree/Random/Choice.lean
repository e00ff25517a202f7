/-!
# Choosing from a list

An entry of a list of `n` entries is chosen by random words. The product of a
word with `n` has its choice in the upper half. A product whose lower half lies
above `zone n` is rejected and the next word is drawn, which leaves every entry
equally many accepted words.

That is the draw for fewer than 2^32 entries, and only for so many do
`leadingZeros`, `zone` and `placeOf` describe it. A longer list would be drawn from
with words of 64 bits.

The words come from a fixed stream and a count of those already used. Nothing in
a stream bounds how many words in a row are rejected. After `patience`
rejections the next word decides whatever it is, so a draw always ends; fewer
than half of all words are rejected, and no stream in use comes near that.
-/

namespace TickTree.Random

/-- How many of the upper of thirty-two binary digits are zero. -/
def leadingZeros (n : Nat) : Nat := 31 - n.log2

/-- How many words there are. -/
def wordCount : Nat := Nat.pow 2 32

/-- The largest lower half of a product that is accepted. -/
def zone (n : Nat) : Nat := n * Nat.pow 2 (leadingZeros n) - 1

/-- The place a word chooses among `n`, `none` if the word is rejected. -/
def placeOf (n : Nat) (word : UInt32) : Option Nat :=
  let product := word.toNat * n
  if product % wordCount ≤ zone n then some (product / wordCount) else none

theorem lt_of_placeOf {n k : Nat} {word : UInt32} (hn : 0 < n) (h : placeOf n word = some k) :
    k < n := by
  simp only [placeOf] at h
  split at h
  · cases h
    exact Nat.div_lt_of_lt_mul (Nat.mul_lt_mul_of_pos_right word.toNat_lt hn)
  · cases h

/-- Each of three entries is chosen by a quarter of the words; the remaining quarter
is rejected. -/
example : [0x3fffffff, 0x40000000, 0x55555556, 0xaaaaaaab].map (placeOf 3)
    = [some 0, none, some 1, some 2] := by decide

/-- The first place chosen by the words from `used` on, with the count of words
used then. The word after so many rejections decides without being tested. -/
def drawWithin (words : Nat → UInt32) (n : Nat) : (rejections used : Nat) → Nat × Nat
  | 0, used => ((words used).toNat * n / wordCount, used + 1)
  | rejections + 1, used =>
      match placeOf n (words used) with
      | some k => (k, used + 1)
      | none => drawWithin words n rejections (used + 1)

/-- How many words in a row may be rejected. -/
def patience : Nat := Nat.pow 2 60

/-- The first place chosen by the words from `used` on, with the count of words
used then. -/
def draw (words : Nat → UInt32) (n used : Nat) : Nat × Nat := drawWithin words n patience used

theorem drawWithin_lt (words : Nat → UInt32) {n : Nat} (hn : 0 < n) (rejections used : Nat) :
    (drawWithin words n rejections used).1 < n := by
  induction rejections generalizing used with
  | zero => exact Nat.div_lt_of_lt_mul (Nat.mul_lt_mul_of_pos_right (words used).toNat_lt hn)
  | succ rejections ih =>
    simp only [drawWithin]
    split
    · rename_i k hk
      exact lt_of_placeOf hn hk
    · exact ih (used + 1)

/-- A draw chooses one of the entries. -/
theorem draw_lt (words : Nat → UInt32) {n : Nat} (hn : 0 < n) (used : Nat) :
    (draw words n used).1 < n :=
  drawWithin_lt words hn patience used

end TickTree.Random

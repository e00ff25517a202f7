/-!
# Random words

The words a seeded tree draws its random choices from: the ChaCha keystream of
twelve rounds, with a key spread from a 64-bit seed. `Random.words seed` is the
whole stream, word `i` standing at place `i % 16` of block `i / 16`.
-/

namespace TickTree.Random

/-- A word turned right; the amount counts modulo 32. -/
def rotateRight (x amount : UInt32) : UInt32 := (x >>> amount) ||| (x <<< (32 - amount))

/-- A word turned left; the amount counts modulo 32. -/
def rotateLeft (x amount : UInt32) : UInt32 := (x <<< amount) ||| (x >>> (32 - amount))

/-! ## The key of a seed -/

/-- One step of the generator that spreads a seed. -/
def spreadStep (state : UInt64) : UInt64 := state * 6364136223846793005 + 11634580027462260723

/-- The word a spreading state gives. -/
def spreadWord (state : UInt64) : UInt32 :=
  rotateRight ((((state >>> 18) ^^^ state) >>> 27).toUInt32) (state >>> 59).toUInt32

/-- The next words of the spread of a state. -/
def spread : Nat → UInt64 → List UInt32
  | 0, _ => []
  | n + 1, state => spreadWord (spreadStep state) :: spread n (spreadStep state)

theorem length_spread (n : Nat) (state : UInt64) : (spread n state).length = n := by
  induction n generalizing state with
  | zero => rfl
  | succ n ih => simp [spread, ih]

/-- The eight key words of a seed. -/
def key (seed : UInt64) : Vector UInt32 8 := ⟨(spread 8 seed).toArray, by simp [length_spread]⟩

/-! ## Blocks -/

/-- The sixteen words a block is made from. -/
abbrev Block := Vector UInt32 16

/-- One quarter round on four places of a block. -/
def quarterRound (a b c d : Fin 16) (s : Block) : Block :=
  let s := s.set a (s[a] + s[b])
  let s := s.set d (rotateLeft (s[d] ^^^ s[a]) 16)
  let s := s.set c (s[c] + s[d])
  let s := s.set b (rotateLeft (s[b] ^^^ s[c]) 12)
  let s := s.set a (s[a] + s[b])
  let s := s.set d (rotateLeft (s[d] ^^^ s[a]) 8)
  let s := s.set c (s[c] + s[d])
  s.set b (rotateLeft (s[b] ^^^ s[c]) 7)

/-- The four columns, then the four diagonals. -/
def doubleRound (s : Block) : Block :=
  let s := quarterRound 0 4 8 12 s
  let s := quarterRound 1 5 9 13 s
  let s := quarterRound 2 6 10 14 s
  let s := quarterRound 3 7 11 15 s
  let s := quarterRound 0 5 10 15 s
  let s := quarterRound 1 6 11 12 s
  let s := quarterRound 2 7 8 13 s
  quarterRound 3 4 9 14 s

/-- The words a block starts from: the four constants, the key and the block's number. -/
def start (k : Vector UInt32 8) (number : UInt64) : Block :=
  #v[0x61707865, 0x3320646e, 0x79622d32, 0x6b206574, k[0], k[1], k[2], k[3],
    k[4], k[5], k[6], k[7], number.toUInt32, (number >>> 32).toUInt32, 0, 0]

/-- A block of the keystream: twelve rounds, added to what they started from. -/
def block (k : Vector UInt32 8) (number : UInt64) : Block :=
  let first := start k number
  let last :=
    (doubleRound ∘ doubleRound ∘ doubleRound ∘ doubleRound ∘ doubleRound ∘ doubleRound) first
  first.zipWith (· + ·) last

/-- The stream of random words of a seed. -/
def words (seed : UInt64) (i : Nat) : UInt32 :=
  (block (key seed) (UInt64.ofNat (i / 16)))[i % 16]

/-- The stream of a seed that may be missing. Without one every stream would do;
this takes the one of zeros. -/
def streamOf (seed : Option UInt64) : Nat → UInt32 := seed.elim (fun _ => 0) words

example : words 42 1 = 2261546851 := by decide +kernel

end TickTree.Random

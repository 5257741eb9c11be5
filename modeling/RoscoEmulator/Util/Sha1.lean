import Mathlib.Data.List.Basic

/-!
# SHA-1

`sha1_creator` of the utility library. The five words of its state take turns in the rounds; here
they keep their places and the values move on, so that word `a` is the one that `finish` writes
first.
-/

namespace RoscoEmulator.Util

namespace Sha1

/-- `m_st`, from `m_st[4]` down. -/
structure State where
  a : BitVec 32
  b : BitVec 32
  c : BitVec 32
  d : BitVec 32
  e : BitVec 32
deriving DecidableEq, Repr

/-- `reset`. -/
def initial : State := ⟨0x67452301, 0xefcdab89, 0x98badcfe, 0x10325476, 0xc3d2e1f0⟩

/-- `sha1_b` with the last sixteen words, the oldest first. -/
def nextWord (data : List (BitVec 32)) : BitVec 32 :=
  (data.getD 13 0 ^^^ data.getD 8 0 ^^^ data.getD 2 0 ^^^ data.getD 0 0).rotateLeft 1

/-- What a round adds for the words `b`, `c` and `d`. -/
def mix (i : ℕ) (s : State) : BitVec 32 :=
  if i < 20 then ((s.b &&& (s.c ^^^ s.d)) ^^^ s.d) + 0x5a827999
  else if i < 40 then (s.b ^^^ s.c ^^^ s.d) + 0x6ed9eba1
  else if i < 60 then (((s.b ||| s.c) &&& s.d) ||| (s.b &&& s.c)) + 0x8f1bbcdc
  else (s.b ^^^ s.c ^^^ s.d) + 0xca62c1d6

/-- `sha1_r0` to `sha1_r4`. -/
def round (i : ℕ) (word : BitVec 32) (s : State) : State where
  a := s.e + mix i s + word + s.a.rotateLeft 5
  b := s.a
  c := s.b.rotateRight 2
  d := s.c
  e := s.d

/-- The rounds from `i` on, `n` of them. -/
def rounds : ℕ → ℕ → List (BitVec 32) → State → State
  | 0, _, _, s => s
  | n + 1, i, data, s =>
      -- the first sixteen words are those of the block
      let word := if i < 16 then data.getD 0 0 else nextWord data
      rounds n (i + 1) (data.tail ++ [word]) (round i word s)

/-- `sha1_process`. -/
def process (s : State) (data : List (BitVec 32)) : State :=
  let r := rounds 80 0 data s
  ⟨s.a + r.a, s.b + r.b, s.c + r.c, s.d + r.d, s.e + r.e⟩

/-- The big-endian words of bytes. -/
def words : List (BitVec 8) → List (BitVec 32)
  | b₃ :: b₂ :: b₁ :: b₀ :: bytes => (b₃ ++ b₂ ++ b₁ ++ b₀) :: words bytes
  | _ => []

/-- The blocks of `append`, for at most `fuel` of them. -/
def processAll : ℕ → State → List (BitVec 8) → State
  | 0, s, _ => s
  | fuel + 1, s, bytes =>
      if bytes.length < 64 then s
      else processAll fuel (process s (words (bytes.take 64))) (bytes.drop 64)

/-- The padding that `finish` appends to `length` bytes. -/
def padding (length : ℕ) : List (BitVec 8) :=
  (0x80 : BitVec 8) :: List.replicate (63 - (length + 8) % 64) 0 ++
    (List.range 8).map fun i ↦ BitVec.ofNat 8 ((length * 8) >>> ((7 - i) * 8))

/-- The bytes of a word. -/
def wordBytes (word : BitVec 32) : List (BitVec 8) :=
  [(word >>> 24).setWidth 8, (word >>> 16).setWidth 8, (word >>> 8).setWidth 8, word.setWidth 8]

/-- The bytes of `sha1_t`. -/
def State.bytes (s : State) : List (BitVec 8) :=
  wordBytes s.a ++ wordBytes s.b ++ wordBytes s.c ++ wordBytes s.d ++ wordBytes s.e

end Sha1

/-- `sha1_creator::simple`, and `finish` behind one `append` or several of parts of `data`. -/
def sha1 (data : List (BitVec 8)) : List (BitVec 8) :=
  (Sha1.processAll (data.length / 64 + 2) Sha1.initial (data ++ Sha1.padding data.length)).bytes

/-- `sha1_t::null`. -/
def sha1Null : List (BitVec 8) := List.replicate 20 0

@[simp] theorem length_sha1 (data : List (BitVec 8)) : (sha1 data).length = 20 := rfl

end RoscoEmulator.Util

import RoscoEmulator.Lib.Rotations
import Mathlib.Logic.Function.Iterate

/-!
# Shifts as iterated steps

What the shift and rotate instructions are for: operations by one bit, with the carry that leaves
the word. A shift by a count is as many steps, and each operation has a closed form for them. A
rotation through X is one of a word that is one bit wider. -/

namespace RoscoEmulator.M68k

open BitVec

inductive ShiftOp
  | asr | asl | ror | rol | roxr | roxl
deriving DecidableEq, Repr

/-- An operand with the flags that a shift works on. -/
@[ext] structure Shifted (w : ℕ) where
  value : BitVec w
  x : Bool
  v : Bool
  c : Bool
deriving DecidableEq

namespace ShiftOp

variable {w : ℕ}

/-- The operand with X above it, taken apart. -/
def extended (u : BitVec (w + 1)) (v : Bool) : Shifted w where
  value := u.setWidth w
  x := u.msb
  v := v
  c := u.msb

/-- A shift by one bit. ASL sets V where the sign changes, and a V that is set stays. -/
def step : ShiftOp → Shifted w → Shifted w
  | asr, r => ⟨r.value.sshiftRight 1, r.value.getLsbD 0, r.v, r.value.getLsbD 0⟩
  | asl, r => ⟨r.value <<< 1, r.value.msb, r.v || ((r.value <<< 1).msb != r.value.msb), r.value.msb⟩
  | ror, r => ⟨r.value.rotateRight 1, r.x, r.v, r.value.getLsbD 0⟩
  | rol, r => ⟨r.value.rotateLeft 1, r.x, r.v, r.value.msb⟩
  | roxr, r => extended ((BitVec.cons r.x r.value).rotateRight 1) r.v
  | roxl, r => extended ((BitVec.cons r.x r.value).rotateLeft 1) r.v

/-- Before the first step V is clear, and so is C, which is X for a rotation through X. -/
def start : ShiftOp → BitVec w → Bool → Shifted w
  | asr, value, x | asl, value, x | ror, value, x | rol, value, x => ⟨value, x, false, false⟩
  | roxr, value, x | roxl, value, x => ⟨value, x, false, x⟩

/-- A shift by a count. -/
def shifted (op : ShiftOp) (n : ℕ) (value : BitVec w) (x : Bool) : Shifted w :=
  op.step^[n] (op.start value x)

variable (n : ℕ) (value : BitVec w) (x : Bool)

theorem shifted_succ (op : ShiftOp) : op.shifted (n + 1) value x = op.step (op.shifted n value x) :=
  Function.iterate_succ_apply' _ _ _

/-! ## Closed forms -/

theorem shifted_asr : asr.shifted n value x =
    ⟨value.sshiftRight n, if n = 0 then x else (value.sshiftRight (n - 1)).getLsbD 0, false,
      if n = 0 then false else (value.sshiftRight (n - 1)).getLsbD 0⟩ := by
  induction n with
  | zero => rw [sshiftRight_zero]; rfl
  | succ n ih =>
    rw [shifted_succ, ih, sshiftRight_add]
    rfl

/-- Some step of a shift to the left changes the sign. -/
def signChanges : Bool := (List.range n).any fun j ↦ (value <<< (j + 1)).msb != (value <<< j).msb

theorem signChanges_succ : signChanges (n + 1) value =
    (signChanges n value || ((value <<< n <<< 1).msb != (value <<< n).msb)) := by
  rw [signChanges, List.range_succ, List.any_append, ← signChanges, List.any_cons, List.any_nil,
    Bool.or_false, shiftLeft_add]

theorem shifted_asl : asl.shifted n value x =
    ⟨value <<< n, if n = 0 then x else (value <<< (n - 1)).msb, signChanges n value,
      if n = 0 then false else (value <<< (n - 1)).msb⟩ := by
  induction n with
  | zero => rw [shiftLeft_zero]; rfl
  | succ n ih =>
    rw [shifted_succ, ih, shiftLeft_add, signChanges_succ]
    rfl

theorem shifted_ror (hw : 1 < w) : ror.shifted n value x =
    ⟨value.rotateRight n, x, false, if n = 0 then false else (value.rotateRight n).msb⟩ := by
  induction n with
  | zero => rw [rotateRight_zero]; rfl
  | succ n ih =>
    have hmsb := msb_rotateRight_one hw (value.rotateRight n)
    rw [rotateRight_rotateRight_one hw] at hmsb
    rw [if_neg (Nat.succ_ne_zero n), hmsb, ← rotateRight_rotateRight_one hw, shifted_succ, ih]
    rfl

theorem shifted_rol (hw : 1 < w) : rol.shifted n value x =
    ⟨value.rotateLeft n, x, false, if n = 0 then false else (value.rotateLeft n).getLsbD 0⟩ := by
  induction n with
  | zero => rw [rotateLeft_zero]; rfl
  | succ n ih =>
    have hlsb := getLsbD_rotateLeft_one hw (value.rotateLeft n)
    rw [rotateLeft_rotateLeft_one hw] at hlsb
    rw [if_neg (Nat.succ_ne_zero n), hlsb, ← rotateLeft_rotateLeft_one hw, shifted_succ, ih]
    rfl

theorem extended_cons : extended (BitVec.cons x value) false = ⟨value, x, false, x⟩ := by
  rw [extended, setWidth_cons, msb_cons]

theorem shifted_roxr (hw : 0 < w) : roxr.shifted n value x =
    extended ((BitVec.cons x value).rotateRight n) false := by
  induction n with
  | zero => rw [rotateRight_zero, extended_cons]; rfl
  | succ n ih =>
    rw [shifted_succ, ih, ← rotateRight_rotateRight_one (Nat.succ_lt_succ hw)]
    exact congrArg (extended · false) (congrArg (rotateRight · 1) (cons_msb_setWidth _))

theorem shifted_roxl (hw : 0 < w) : roxl.shifted n value x =
    extended ((BitVec.cons x value).rotateLeft n) false := by
  induction n with
  | zero => rw [rotateLeft_zero, extended_cons]; rfl
  | succ n ih =>
    rw [shifted_succ, ih, ← rotateLeft_rotateLeft_one (Nat.succ_lt_succ hw)]
    exact congrArg (extended · false) (congrArg (rotateLeft · 1) (cons_msb_setWidth _))

/-- The sign stays exactly if it is that of the operand after every step. -/
theorem signChanges_eq_false_iff :
    signChanges n value = false ↔ ∀ j ≤ n, (value <<< j).msb = value.msb := by
  induction n with
  | zero =>
    refine iff_of_true rfl fun j hj ↦ ?_
    rw [Nat.le_zero.mp hj, shiftLeft_zero]
  | succ n ih =>
    rw [signChanges_succ, Bool.or_eq_false_iff, ih, bne_eq_false_iff_eq, ← shiftLeft_add]
    constructor
    · rintro ⟨hbefore, hlast⟩ j hj
      rcases Nat.lt_or_eq_of_le hj with hlt | rfl
      · exact hbefore j (Nat.le_of_lt_succ hlt)
      · rw [hlast, hbefore n (Nat.le_refl n)]
    · intro h
      refine ⟨fun j hj ↦ h j (Nat.le_succ_of_le hj), ?_⟩
      rw [h (n + 1) (Nat.le_refl _), h n (Nat.le_succ n)]

end ShiftOp

end RoscoEmulator.M68k

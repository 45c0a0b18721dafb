/-
# `SimpleOs.Lib.BitField` — bit fields of a machine word

A field is a run of bits `l..h` of a word of width `w`.  Reading it masks and
shifts down, writing it clears the run and ors the shifted value in.  The
lemmas say that a written field reads back the value modulo the field's width
and that a field write leaves every bit outside the run alone; they are stated
bit by bit (`getLsbD`) and, for the values, on `toNat`.
-/
import Mathlib.Data.Nat.Bitwise
import Mathlib.Tactic.Ring

namespace BitField

variable {w : Nat}

/-- The word of width `w` whose set bits are exactly `l..h`. -/
def genmask (w h l : Nat) : BitVec w :=
  (BitVec.allOnes w <<< l) &&& (BitVec.allOnes w >>> (w - h - 1))

/-- The value of the field `l..h`. -/
def getField (v : BitVec w) (h l : Nat) : BitVec w :=
  (v &&& genmask w h l) >>> l

/-- The word `v` with `x` stored in its field `l..h`. -/
def setField (v x : BitVec w) (h l : Nat) : BitVec w :=
  (v &&& ~~~(genmask w h l)) ||| ((x <<< l) &&& genmask w h l)

theorem getLsbD_genmask {h l i : Nat} (hh : h < w) :
    (genmask w h l).getLsbD i = (decide (l ≤ i) && decide (i ≤ h)) := by
  simp only [genmask, BitVec.getLsbD_and, BitVec.getLsbD_shiftLeft,
    BitVec.getLsbD_ushiftRight, BitVec.getLsbD_allOnes]
  by_cases h1 : l ≤ i <;> by_cases h2 : i ≤ h <;> simp [h1, h2] <;> omega

/-! ## A single bit -/

theorem getLsbD_setBit {v : BitVec w} {j i : Nat} (hj : j < w) :
    (v ||| genmask w j j).getLsbD i = (v.getLsbD i || decide (i = j)) := by
  rw [BitVec.getLsbD_or, getLsbD_genmask hj]
  by_cases h : i = j
  · subst h; simp
  · have : ¬ (j ≤ i ∧ i ≤ j) := by omega
    simp [h]
    intro h1 h2; omega

theorem getLsbD_clearBit {v : BitVec w} {j i : Nat} (hj : j < w) :
    (v &&& ~~~(genmask w j j)).getLsbD i = (v.getLsbD i && !decide (i = j)) := by
  rw [BitVec.getLsbD_and, BitVec.getLsbD_not, getLsbD_genmask hj]
  by_cases hi : i < w
  · by_cases h : i = j
    · subst h; simp
    · have : ¬ (j ≤ i ∧ i ≤ j) := by omega
      simp only [← Bool.decide_and, this, hi, h]
      simp
  · simp [BitVec.getLsbD_of_ge v i (by omega)]

/-! ## Fields -/

theorem getLsbD_getField {v : BitVec w} {h l i : Nat} (hh : h < w) :
    (getField v h l).getLsbD i = (v.getLsbD (l + i) && decide (l + i ≤ h)) := by
  rw [getField, BitVec.getLsbD_ushiftRight, BitVec.getLsbD_and, getLsbD_genmask hh]
  simp

theorem getLsbD_setField {v x : BitVec w} {h l i : Nat} (hh : h < w) :
    (setField v x h l).getLsbD i =
      if l ≤ i ∧ i ≤ h then x.getLsbD (i - l) else v.getLsbD i := by
  rw [setField, BitVec.getLsbD_or, BitVec.getLsbD_and, BitVec.getLsbD_and,
    BitVec.getLsbD_not, BitVec.getLsbD_shiftLeft, getLsbD_genmask hh]
  by_cases h1 : l ≤ i <;> by_cases h2 : i ≤ h
  · have hi : i < w := by omega
    simp [h1, h2, hi]
  all_goals
    by_cases hi : i < w
    · simp [h1, h2, hi]
    · simp [h1, h2, BitVec.getLsbD_of_ge v i (by omega)]

/-- Bits outside the field survive a write. -/
theorem getLsbD_setField_of_not_mem {v x : BitVec w} {h l i : Nat} (hh : h < w)
    (hi : ¬ (l ≤ i ∧ i ≤ h)) : (setField v x h l).getLsbD i = v.getLsbD i := by
  rw [getLsbD_setField hh, if_neg hi]

/-- A field's value is the word divided down and cut to the field's width. -/
theorem toNat_getField {v : BitVec w} {h l : Nat} (hh : h < w) :
    (getField v h l).toNat = v.toNat / 2 ^ l % 2 ^ (h + 1 - l) := by
  apply Nat.eq_of_testBit_eq
  intro i
  have hb := getLsbD_getField (v := v) (l := l) (i := i) hh
  rw [BitVec.getLsbD, BitVec.getLsbD] at hb
  rw [hb, Nat.testBit_mod_two_pow, Nat.testBit_div_two_pow, Bool.and_comm]
  congr 1
  · exact decide_eq_decide.mpr (by omega)
  · rw [Nat.add_comm]

/-- A field just written reads back the value, cut to the field's width. -/
theorem toNat_getField_setField {v x : BitVec w} {h l : Nat} (hl : l ≤ h) (hh : h < w) :
    (getField (setField v x h l) h l).toNat = x.toNat % 2 ^ (h + 1 - l) := by
  apply Nat.eq_of_testBit_eq
  intro i
  have hb := getLsbD_getField (v := setField v x h l) (l := l) (i := i) hh
  rw [getLsbD_setField hh] at hb
  rw [BitVec.getLsbD] at hb
  rw [hb, Nat.testBit_mod_two_pow]
  by_cases hi : l + i ≤ h
  · have hi' : i < h + 1 - l := by omega
    simp [hi, hi', BitVec.getLsbD]
  · have hi' : ¬ i < h + 1 - l := by omega
    simp [hi, hi']

/-- A field below the one written reads what it read before. -/
theorem getField_setField_below {v x : BitVec w} {h l h' l' : Nat} (hh : h < w) (hlt : h' < l)
    (hl : l ≤ h) : getField (setField v x h l) h' l' = getField v h' l' := by
  apply BitVec.eq_of_getLsbD_eq
  intro i _
  rw [getLsbD_getField (by omega), getLsbD_getField (by omega)]
  by_cases hi : l' + i ≤ h'
  · rw [getLsbD_setField_of_not_mem hh (by omega)]
  · simp [hi]

end BitField

import Mathlib.Data.List.Range
import Mathlib.Tactic.Ring

/-!
# Bits in arrays of words

An array of words of `w` bits as a function of the index, and its bits, least significant first: bit
`k` is bit `k % w` of word `k / w`.
-/

namespace Castle.WordBits

/-- What holds of the bytes of the 256 numbers holds of every byte. -/
theorem forall_byte {p : UInt8 → Prop} (h : ∀ n : Fin 256, p (UInt8.ofNat n)) (c : UInt8) : p c := by
  have hc := h ⟨c.toNat, c.toNat_lt⟩
  rwa [UInt8.ofNat_toNat] at hc

variable {w : ℕ} (x y : ℕ → BitVec w)

def bit (k : ℕ) : Bool := (x (k / w)).getLsbD (k % w)

theorem bit_mul_add {j : ℕ} (hj : j < w) (d : ℕ) : bit x (d * w + j) = (x d).getLsbD j := by
  have hdiv : (d * w + j) / w = d := by
    rw [Nat.mul_comm, Nat.mul_add_div (by omega), Nat.div_eq_of_lt hj, Nat.add_zero]
  have hmod : (d * w + j) % w = j := by
    rw [Nat.mul_comm, Nat.mul_add_mod, Nat.mod_eq_of_lt hj]
  rw [bit, hdiv, hmod]

theorem exists_mul_add (hw : 0 < w) (k : ℕ) : ∃ d j, j < w ∧ k = d * w + j :=
  ⟨k / w, k % w, Nat.mod_lt _ hw, by rw [Nat.mul_comm]; exact (Nat.div_add_mod k w).symm⟩

/-- Word `d` of the array shifted up by `wordShift` words and `bitShift` bits. -/
def shiftedUp (wordShift bitShift d : ℕ) : BitVec w :=
  if d ≥ wordShift then
    let source := d - wordShift
    let value := x source <<< bitShift
    if bitShift ≠ 0 ∧ source > 0 then value ||| x (source - 1) >>> (w - bitShift) else value
  else 0

/-- Word `d` of the first `n` words shifted down. -/
def shiftedDown (n wordShift bitShift d : ℕ) : BitVec w :=
  let source := d + wordShift
  if source < n then
    let value := x source >>> bitShift
    if bitShift ≠ 0 ∧ source + 1 < n then value ||| x (source + 1) <<< (w - bitShift) else value
  else 0

theorem div_mod_mul_add {bs : ℕ} (hbs : bs < w) (ws : ℕ) :
    (ws * w + bs) / w = ws ∧ (ws * w + bs) % w = bs := by
  constructor
  · rw [Nat.mul_comm, Nat.mul_add_div (by omega), Nat.div_eq_of_lt hbs, Nat.add_zero]
  · rw [Nat.mul_comm, Nat.mul_add_mod, Nat.mod_eq_of_lt hbs]

theorem bit_shiftedUp (hw : 0 < w) (shift k : ℕ) :
    bit (shiftedUp x (shift / w) (shift % w)) k = (decide (shift ≤ k) && bit x (k - shift)) := by
  obtain ⟨d, j, hj, rfl⟩ := exists_mul_add hw k
  obtain ⟨ws, bs, hbs, rfl⟩ := exists_mul_add hw shift
  rw [bit_mul_add _ hj, (div_mod_mul_add hbs ws).1, (div_mod_mul_add hbs ws).2]
  unfold shiftedUp
  by_cases hd : d ≥ ws
  · obtain ⟨e, rfl⟩ := Nat.exists_eq_add_of_le hd
    have hexp : (ws + e) * w = ws * w + e * w := Nat.add_mul ws e w
    simp only [if_pos hd, Nat.add_sub_cancel_left, hexp]
    by_cases hlow : bs ≤ j
    -- the bit comes from the word itself
    · have hplace : ws * w + e * w + j - (ws * w + bs) = e * w + (j - bs) := by omega
      rw [hplace, bit_mul_add x (by omega), decide_eq_true (by omega), Bool.true_and]
      split_ifs
      · have hover := BitVec.getLsbD_of_ge (x (e - 1)) (w - bs + j) (by omega)
        rw [BitVec.getLsbD_or, BitVec.getLsbD_shiftLeft, BitVec.getLsbD_ushiftRight, hover]
        simp [hj, hlow]
      · rw [BitVec.getLsbD_shiftLeft]
        simp [hj, hlow]
    -- the bit crosses over from the word before, if there is one
    · rcases Nat.eq_zero_or_pos e with rfl | he
      · rw [if_neg (by omega), decide_eq_false (by omega), BitVec.getLsbD_shiftLeft]
        simp [show j < bs by omega]
      · have hprev : e * w = (e - 1) * w + w := by
          rw [← Nat.succ_mul]
          congr 1
          omega
        have hplace : ws * w + e * w + j - (ws * w + bs) = (e - 1) * w + (w - bs + j) := by omega
        rw [hplace, bit_mul_add x (by omega), decide_eq_true (by omega), if_pos (by omega),
          BitVec.getLsbD_or, BitVec.getLsbD_shiftLeft, BitVec.getLsbD_ushiftRight]
        simp [show j < bs by omega]
  · have hlt : d * w + w ≤ ws * w := by
      rw [← Nat.succ_mul]
      exact Nat.mul_le_mul_right w (by omega)
    rw [if_neg hd, decide_eq_false (by omega)]
    simp

theorem bit_shiftedDown (hw : 0 < w) {n : ℕ} (hzero : ∀ d, n ≤ d → x d = 0) (shift k : ℕ) :
    bit (shiftedDown x n (shift / w) (shift % w)) k = bit x (k + shift) := by
  obtain ⟨d, j, hj, rfl⟩ := exists_mul_add hw k
  obtain ⟨ws, bs, hbs, rfl⟩ := exists_mul_add hw shift
  have hexp : (d + ws) * w = d * w + ws * w := Nat.add_mul d ws w
  rw [bit_mul_add _ hj, (div_mod_mul_add hbs ws).1, (div_mod_mul_add hbs ws).2]
  unfold shiftedDown
  by_cases hlow : j + bs < w
  -- the bit comes from the word itself
  · have hplace : d * w + j + (ws * w + bs) = (d + ws) * w + (bs + j) := by omega
    rw [hplace, bit_mul_add x (by omega)]
    by_cases hd : d + ws < n
    · simp only [if_pos hd]
      split_ifs
      · rw [BitVec.getLsbD_or, BitVec.getLsbD_ushiftRight, BitVec.getLsbD_shiftLeft]
        simp [show j < w - bs by omega]
      · rw [BitVec.getLsbD_ushiftRight]
    · simp only [if_neg hd]
      rw [hzero _ (by omega)]
      simp
  -- the bit crosses over from the word behind, if there is one
  · have hnext : (d + ws + 1) * w = (d + ws) * w + w := Nat.succ_mul _ _
    have hplace : d * w + j + (ws * w + bs) = (d + ws + 1) * w + (j - (w - bs)) := by omega
    rw [hplace, bit_mul_add x (by omega)]
    by_cases hd : d + ws < n
    · simp only [if_pos hd]
      by_cases hd' : d + ws + 1 < n
      · have hover := BitVec.getLsbD_of_ge (x (d + ws)) (bs + j) (by omega)
        rw [if_pos (by omega), BitVec.getLsbD_or, BitVec.getLsbD_ushiftRight,
          BitVec.getLsbD_shiftLeft, hover]
        simp [hj, show ¬ j < w - bs by omega]
      · have hover := BitVec.getLsbD_of_ge (x (d + ws)) (bs + j) (by omega)
        rw [if_neg (by omega), BitVec.getLsbD_ushiftRight, hover, hzero _ (by omega)]
        simp
    · simp only [if_neg hd]
      rw [hzero _ (by omega)]
      simp

/-- The number of ones in a word. -/
def ones (value : BitVec w) : ℕ := (List.range w).countP fun j => value.getLsbD j

theorem sum_ones (n : ℕ) :
    ((List.range n).map fun d => ones (x d)).sum = (List.range (n * w)).countP fun k => bit x k := by
  induction n with
  | zero => simp
  | succ n ih =>
    rw [List.range_succ, List.map_append, List.sum_append, ih, Nat.succ_mul, List.range_add,
      List.countP_append, List.countP_map]
    simp only [List.map_cons, List.map_nil, List.sum_cons, List.sum_nil, Nat.add_zero]
    congr 1
    apply List.countP_congr
    intro j hj
    rw [Function.comp_apply, bit_mul_add x (List.mem_range.mp hj)]

end Castle.WordBits

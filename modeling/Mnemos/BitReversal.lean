import Mathlib.Data.Nat.Bitwise
import Mathlib.Tactic.Ring

/-!
# Reversed-binary order of machine words

Words of a fixed width are ranked by the value of their reversed bits. A low-
bit mask of `k` bits then groups the words into `2^k` consecutive blocks of
ranks, and setting the bits above the mask, reversing, incrementing and
reversing back moves to the first word of the next block.
-/

namespace Mnemos.BitReversal

def lowMask (w k : ℕ) : BitVec w := BitVec.ofNat w (2^k-1)

def rank {w : ℕ} (x : BitVec w) : ℕ := x.reverse.toNat

/-- Reversed-binary successor of `x` under a mask `m`: set the bits above the
mask, reverse, increment and reverse back. -/
def next {w : ℕ} (m x : BitVec w) : BitVec w := ((x ||| ~~~m).reverse+1).reverse

variable {w : ℕ}

theorem rank_lt (x : BitVec w) : rank x < 2^w := x.reverse.isLt

theorem getLsbD_lowMask (w k i : ℕ) :
    (lowMask w k).getLsbD i=(decide (i < w) && decide (i < k)) := by
  rw [lowMask,BitVec.getLsbD_ofNat,Nat.testBit_two_pow_sub_one]

theorem or_low_bits (a t : ℕ) : a ||| (2^t-1)=a/2^t*2^t+(2^t-1) := by
  have hlow : 2^t-1 < 2^t := Nat.sub_lt (Nat.two_pow_pos t) Nat.one_pos
  rw [Nat.mul_comm,Nat.two_pow_add_eq_or_of_lt hlow]
  refine Nat.eq_of_testBit_eq fun i => ?_
  simp only [Nat.testBit_or,Nat.testBit_two_pow_sub_one,Nat.testBit_two_pow_mul,
    Nat.testBit_div_two_pow]
  by_cases hi : i < t
  · simp [hi]
  · have hge : t ≤ i := Nat.le_of_not_lt hi
    simp [hi,hge]

theorem reverse_or_not_mask {k : ℕ} (hk : k ≤ w) (x : BitVec w) :
    (x ||| ~~~(lowMask w k)).reverse=x.reverse ||| lowMask w (w-k) := by
  apply BitVec.eq_of_getLsbD_eq
  intro i hi
  rw [BitVec.getLsbD_reverse,BitVec.getMsbD_or,BitVec.getLsbD_or,BitVec.getLsbD_reverse,
    BitVec.getMsbD_not,BitVec.getMsbD_eq_getLsbD (lowMask w k),getLsbD_lowMask,getLsbD_lowMask]
  have hflip : (w-1-i < k) ↔ ¬ i < w-k := by omega
  by_cases hlow : i < w-k
  · simp [hi,hlow,hflip]
  · have hw : w-1-i < w := by omega
    simp [hi,hlow,hflip,hw]

theorem rank_next {k : ℕ} (hk : k ≤ w) (x : BitVec w) :
    rank (next (lowMask w k) x)=((rank x/2^(w-k)+1)*2^(w-k))%2^w := by
  have hmask : 2^(w-k)-1 < 2^w :=
    lt_of_lt_of_le (Nat.sub_lt (Nat.two_pow_pos _) Nat.one_pos)
      (Nat.pow_le_pow_right (by decide) (Nat.sub_le w k))
  have hpos : 0 < 2^(w-k) := Nat.two_pow_pos _
  have hsum : rank x/2^(w-k)*2^(w-k)+(2^(w-k)-1)+1=(rank x/2^(w-k)+1)*2^(w-k) := by
    rw [Nat.add_mul,Nat.one_mul]
    omega
  have hone : (1 : BitVec w).toNat=1%2^w := rfl
  rw [rank,next,BitVec.reverse_reverse_eq,reverse_or_not_mask hk,BitVec.toNat_add,
    BitVec.toNat_or,lowMask,BitVec.toNat_ofNat,Nat.mod_eq_of_lt hmask,or_low_bits,
    hone,Nat.add_mod_mod]
  exact congrArg (·%2^w) hsum

/-- Two words select the same bucket under a mask exactly when their ranks lie
in the same block. -/
theorem and_mask_eq_iff {k : ℕ} (hk : k ≤ w) (x y : BitVec w) :
    x &&& lowMask w k=y &&& lowMask w k ↔ rank x/2^(w-k)=rank y/2^(w-k) := by
  have hbit : ∀ (z : BitVec w) (j : ℕ), j < k →
      (rank z/2^(w-k)).testBit (k-1-j)=z.getLsbD j := by
    intro z j hj
    have hidx : k-1-j+(w-k) < w := by omega
    have hback : w-1-(k-1-j+(w-k))=j := by omega
    rw [rank,Nat.testBit_div_two_pow,BitVec.testBit_toNat,BitVec.getLsbD_reverse,
      BitVec.getMsbD_eq_getLsbD,hback]
    simp [hidx]
  have hhigh : ∀ (z : BitVec w) (j : ℕ), k ≤ j → (rank z/2^(w-k)).testBit j=false := by
    intro z j hj
    rw [rank,Nat.testBit_div_two_pow,BitVec.testBit_toNat]
    exact BitVec.getLsbD_of_ge _ _ (by omega)
  constructor
  · intro h
    refine Nat.eq_of_testBit_eq fun j => ?_
    by_cases hj : j < k
    · have hbits := congrArg (fun z : BitVec w => z.getLsbD (k-1-j)) h
      simp only [BitVec.getLsbD_and,getLsbD_lowMask] at hbits
      have hjk : k-1-(k-1-j)=j := by omega
      have hlt : k-1-j < k := by omega
      have hw : k-1-j < w := by omega
      have hx := hbit x (k-1-j) hlt
      have hy := hbit y (k-1-j) hlt
      rw [hjk] at hx hy
      rw [hx,hy]
      simpa [hlt,hw] using hbits
    · rw [hhigh x j (Nat.le_of_not_lt hj),hhigh y j (Nat.le_of_not_lt hj)]
  · intro h
    apply BitVec.eq_of_getLsbD_eq
    intro i hi
    rw [BitVec.getLsbD_and,BitVec.getLsbD_and,getLsbD_lowMask]
    by_cases hk' : i < k
    · rw [← hbit x i hk',← hbit y i hk',h]
    · simp [hk']

theorem block_dvd_rank_iff {s : ℕ} (hs : s ≤ w) (x : BitVec w) :
    2^(w-s)∣rank x ↔ ∀ i, s ≤ i → x.getLsbD i=false := by
  have hbit : ∀ i < w, (rank x).testBit i=x.getLsbD (w-1-i) := by
    intro i hi
    rw [rank,BitVec.testBit_toNat,BitVec.getLsbD_reverse,BitVec.getMsbD_eq_getLsbD]
    simp [hi]
  rw [Nat.dvd_iff_mod_eq_zero]
  constructor
  · intro h i hi
    by_cases hw : i < w
    · have htest := congrArg (fun n : ℕ => n.testBit (w-1-i)) h
      have hlow : w-1-i < w-s := by omega
      simp only [Nat.testBit_mod_two_pow,hlow,decide_true,Bool.true_and,Nat.zero_testBit] at htest
      rw [hbit (w-1-i) (by omega)] at htest
      have hback : w-1-(w-1-i)=i := by omega
      rwa [hback] at htest
    · exact BitVec.getLsbD_of_ge _ _ (Nat.le_of_not_lt hw)
  · intro h
    refine Nat.eq_of_testBit_eq fun i => ?_
    rw [Nat.testBit_mod_two_pow,Nat.zero_testBit]
    by_cases hi : i < w-s
    · rw [hbit i (by omega),h (w-1-i) (by omega),Bool.and_false]
    · simp [hi]

theorem and_xor_mask_eq_zero_iff {s l : ℕ} (hsl : s ≤ l) (hl : l ≤ w) {x : BitVec w}
    (hx : 2^(w-l)∣rank x) :
    x &&& (lowMask w s ^^^ lowMask w l)=0 ↔ 2^(w-s)∣rank x := by
  rw [block_dvd_rank_iff (hsl.trans hl)]
  have hhigh := (block_dvd_rank_iff hl x).mp hx
  constructor
  · intro h i hi
    by_cases hil : i < l
    · have hbit := congrArg (fun z : BitVec w => z.getLsbD i) h
      have hw : i < w := by omega
      have hs : ¬ i < s := by omega
      simp only [BitVec.getLsbD_and,BitVec.getLsbD_xor,getLsbD_lowMask,hil,hw,hs,decide_true,
        decide_false,Bool.and_false,Bool.and_true,Bool.false_xor] at hbit
      exact hbit.trans BitVec.getLsbD_zero
    · exact hhigh i (Nat.le_of_not_lt hil)
  · intro h
    apply BitVec.eq_of_getLsbD_eq
    intro i hi
    by_cases his : i < s
    · have hil : i < l := by omega
      simp [getLsbD_lowMask,his,hil]
    · simp [h i (Nat.le_of_not_lt his)]

/-- Ranks visited by a walk that has reached cursor `x`; zero after the last block. -/
def reached {w : ℕ} (x : BitVec w) : ℕ := if x=0 then 2^w else rank x

theorem rank_eq_zero {x : BitVec w} (h : rank x=0) : x=0 := by
  have hr : x.reverse=0#w := BitVec.eq_of_toNat_eq (by simpa [rank] using h)
  have hz : (0#w : BitVec w).reverse=0#w := by
    apply BitVec.eq_of_getLsbD_eq
    intro i hi
    simp [BitVec.getLsbD_reverse,BitVec.getMsbD_eq_getLsbD]
  rw [← BitVec.reverse_reverse_eq (x := x),hr,hz]
  rfl

theorem rank_zero (w : ℕ) : rank (0 : BitVec w)=0 := by
  have h := (block_dvd_rank_iff (Nat.zero_le w) (0 : BitVec w)).mpr fun i _ => by simp
  exact Nat.eq_zero_of_dvd_of_lt h (rank_lt _)

theorem reached_next {k : ℕ} (hk : k ≤ w) (x : BitVec w) :
    reached (next (lowMask w k) x)=(rank x/2^(w-k)+1)*2^(w-k) := by
  have hpow : 2^k*2^(w-k)=2^w := by
    rw [← pow_add,Nat.add_sub_cancel' hk]
  have hle : (rank x/2^(w-k)+1)*2^(w-k) ≤ 2^w := by
    rw [← hpow]
    refine Nat.mul_le_mul_right _ (Nat.succ_le_of_lt ?_)
    rw [Nat.div_lt_iff_lt_mul (Nat.two_pow_pos _),hpow]
    exact rank_lt x
  have hpos : 0 < (rank x/2^(w-k)+1)*2^(w-k) := Nat.mul_pos (Nat.succ_pos _) (Nat.two_pow_pos _)
  have hrank := rank_next hk x
  rcases Nat.lt_or_eq_of_le hle with hlt | heq
  · rw [Nat.mod_eq_of_lt hlt] at hrank
    rw [reached,if_neg,hrank]
    intro hz
    rw [hz,rank_zero] at hrank
    omega
  · rw [heq,Nat.mod_self] at hrank
    rw [reached,if_pos (rank_eq_zero hrank),heq]

end Mnemos.BitReversal

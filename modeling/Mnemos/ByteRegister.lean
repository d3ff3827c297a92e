import Mnemos.Bytes
import Mnemos.ShiftRegister

/-!
# Shift registers fed with bytes

Bytes as symbols of eight bits. As many as fit into the register are one
little-endian number, so they are told apart by what they leave.
-/

open List

namespace ShiftRegister

open Mnemos

variable {w : ℕ}

def byteSymbol (w : ℕ) (b : UInt8) : BitVec w := b.toBitVec.setWidth w

theorem byteSymbol_toNat (h : 8 ≤ w) (b : UInt8) : (byteSymbol w b).toNat=b.toNat :=
  BitVec.toNat_setWidth_of_le h

theorem byteSymbols_lt (bytes : Bytes) : ∀ s∈bytes.map (byteSymbol w),s.toNat < 2^8 := by
  intro s hs
  obtain ⟨b,-,rfl⟩ := mem_map.mp hs
  rw [byteSymbol,BitVec.toNat_setWidth]
  exact lt_of_le_of_lt (Nat.mod_le _ _) b.toNat_lt

theorem byteSymbol_ushiftRight (b : UInt8) : byteSymbol w b >>> 8=0#w := by
  apply BitVec.eq_of_toNat_eq
  rw [BitVec.toNat_ushiftRight,Nat.shiftRight_eq_div_pow,
    Nat.div_eq_of_lt (byteSymbols_lt [b] _ mem_cons_self)]
  exact (BitVec.toNat_zero).symm

theorem xor_eq_add {b : ℕ} (k a : ℕ) (hb : b < 2^k) : b^^^2^k*a=2^k*a+b := by
  refine Nat.eq_of_testBit_eq fun i => ?_
  rw [Nat.testBit_xor,Nat.testBit_two_pow_mul_add a hb,Nat.testBit_two_pow_mul]
  by_cases hi : i < k
  · rw [if_pos hi,decide_eq_false (by omega),Bool.false_and,Bool.xor_false]
  · have hhigh : b.testBit i=false := Nat.testBit_lt_two_pow
      (lt_of_lt_of_le hb (Nat.pow_le_pow_right (by decide) (by omega)))
    rw [if_neg hi,hhigh,decide_eq_true (by omega : i ≥ k),Bool.true_and,Bool.false_xor]

theorem packed_bytes {bytes : Bytes} (hfits : 8*bytes.length ≤ w) :
    (packed 8 (bytes.map (byteSymbol w))).toNat=leValue bytes := by
  induction bytes with
  | nil => exact BitVec.toNat_zero
  | cons b bytes ih =>
    rw [length_cons] at hfits
    have hb := b.toNat_lt
    have hlt : leValue (b::bytes) < 2^w := by
      refine lt_of_lt_of_le (leValue_lt _) ?_
      rw [length_cons,show 256=2^8 from rfl,← pow_mul]
      exact Nat.pow_le_pow_right (by decide) (by omega)
    rw [leValue] at hlt ⊢
    rw [map_cons,packed,BitVec.toNat_xor,BitVec.toNat_shiftLeft,ih (by omega),
      byteSymbol_toNat (by omega),Nat.shiftLeft_eq,Nat.mul_comm,Nat.mod_eq_of_lt (by omega),
      -- the byte lies below the others
      xor_eq_add 8 _ hb,Nat.add_comm]
    rfl

/-- Messages that differ inside as many consecutive bytes as fit into the register leave different
ones. -/
theorem eq_of_feedAll_eq {poly : BitVec w} (hpoly : poly.msb=true) {u v : Bytes}
    (hlen : u.length=v.length) (hfits : 8*u.length ≤ w) (s : BitVec w) (before after : Bytes)
    (h : feedAll poly 8 s ((before++u++after).map (byteSymbol w))=
      feedAll poly 8 s ((before++v++after).map (byteSymbol w))) : u=v := by
  have hsplit : ∀ x : Bytes,feedAll poly 8 s ((before++x++after).map (byteSymbol w))=
      feedAll poly 8 (feedAll poly 8 s (before.map (byteSymbol w)))
        (x.map (byteSymbol w)++after.map (byteSymbol w)) := fun x => by
    rw [append_assoc,map_append,map_append]
    exact foldl_append
  rw [hsplit,hsplit] at h
  have hpacked := packed_eq_of_feedAll hpoly (byteSymbols_lt u) (byteSymbols_lt v)
    (by rw [length_map,length_map,hlen]) (by rwa [length_map]) _ _ h
  have hvalue : leValue u=leValue v := by
    rw [← packed_bytes hfits,← packed_bytes (hlen ▸ hfits),hpacked]
  rw [← leBytes_leValue u,← leBytes_leValue v,hvalue,hlen]

theorem window_parts (i n : ℕ) (x : Bytes) : x=x.take i++(x.drop i).take n++x.drop (i+n) := by
  rw [← drop_drop,append_assoc,take_append_drop,take_append_drop]

end ShiftRegister

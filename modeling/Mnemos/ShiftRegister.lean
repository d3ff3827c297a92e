import Mathlib.Algebra.Group.Nat.Defs
import Mathlib.Logic.Function.Iterate
import Mathlib.Tactic.Common

/-!
# Reflected shift registers

A register of `w` bits moves down one place at a time and takes a polynomial in
when a one falls out.
-/

open List

namespace ShiftRegister

variable {w : ℕ}

def shift (poly s : BitVec w) : BitVec w := (s >>> 1)^^^(if s.getLsbD 0 then poly else 0#w)

def feed (poly : BitVec w) (c : ℕ) (s b : BitVec w) : BitVec w := (shift poly)^[c] (s^^^b)

def feedAll (poly : BitVec w) (c : ℕ) (s : BitVec w) (bs : List (BitVec w)) : BitVec w :=
  bs.foldl (feed poly c) s

def packed (c : ℕ) : List (BitVec w) → BitVec w
  | [] => 0#w
  | b::bs => b^^^(packed c bs <<< c)

section Shift

variable {poly : BitVec w}

theorem shift_xor (a b : BitVec w) : shift poly (a^^^b)=shift poly a^^^shift poly b := by
  have hmask : (if (a^^^b).getLsbD 0 then poly else 0#w)=
      (if a.getLsbD 0 then poly else 0#w)^^^(if b.getLsbD 0 then poly else 0#w) := by
    rw [BitVec.getLsbD_xor]
    cases a.getLsbD 0 <;> cases b.getLsbD 0 <;> simp
  rw [shift,shift,shift,hmask,BitVec.ushiftRight_xor_distrib]
  ac_rfl

theorem iterate_shift_xor (n : ℕ) (a b : BitVec w) :
    (shift poly)^[n] (a^^^b)=(shift poly)^[n] a^^^(shift poly)^[n] b := by
  induction n generalizing a b with
  | zero => rfl
  | succ n ih => rw [Function.iterate_succ_apply,shift_xor,ih,← Function.iterate_succ_apply,
      ← Function.iterate_succ_apply]

theorem eq_of_xor_eq_zero {a b : BitVec w} (h : a^^^b=0#w) : a=b := by
  have := congrArg (·^^^b) h
  rwa [BitVec.xor_assoc,BitVec.xor_self,BitVec.xor_zero,BitVec.zero_xor] at this

theorem eq_zero_of_shift (hpoly : poly.msb=true) {s : BitVec w} (h : shift poly s=0#w) : s=0#w := by
  have hw : 0 < w := by
    by_contra hzero
    rw [BitVec.msb_eq_getLsbD_last,BitVec.getLsbD_of_ge _ _ (by omega)] at hpoly
    cases hpoly
  rw [shift] at h
  cases hlow : s.getLsbD 0 with
  | true =>
    -- the polynomial's top bit stays
    rw [hlow,if_pos rfl] at h
    have htop := congrArg (fun x : BitVec w => x.getLsbD (w-1)) h
    rw [BitVec.getLsbD_xor,BitVec.getLsbD_ushiftRight,BitVec.getLsbD_of_ge s _ (by omega),
      ← BitVec.msb_eq_getLsbD_last,hpoly,BitVec.getLsbD_zero] at htop
    cases htop
  | false =>
    rw [hlow,if_neg (by decide),BitVec.xor_zero] at h
    refine BitVec.eq_of_getLsbD_eq fun i hi => ?_
    rw [BitVec.getLsbD_zero]
    cases i with
    | zero => exact hlow
    | succ i =>
      have hbit := congrArg (fun x : BitVec w => x.getLsbD i) h
      rw [BitVec.getLsbD_ushiftRight,BitVec.getLsbD_zero,Nat.add_comm] at hbit
      exact hbit

theorem shift_injective (hpoly : poly.msb=true) : Function.Injective (shift poly) := by
  intro a b h
  refine eq_of_xor_eq_zero (eq_zero_of_shift hpoly ?_)
  rw [shift_xor,h,BitVec.xor_self]

theorem iterate_shift_shiftLeft (n : ℕ) {x : BitVec w} (h : x.toNat*2^n < 2^w) :
    (shift poly)^[n] (x <<< n)=x := by
  induction n with
  | zero => exact BitVec.shiftLeft_zero x
  | succ n ih =>
    rw [Nat.pow_succ,← Nat.mul_assoc] at h
    have hn : x.toNat*2^n < 2^w := by omega
    have hvalue : (x <<< n).toNat=x.toNat*2^n := by
      rw [BitVec.toNat_shiftLeft,Nat.shiftLeft_eq,Nat.mod_eq_of_lt hn]
    have hvalue' : (x <<< (n+1)).toNat=x.toNat*2^n*2 := by
      rw [BitVec.toNat_shiftLeft,Nat.shiftLeft_eq,Nat.pow_succ,← Nat.mul_assoc,Nat.mod_eq_of_lt h]
    have hlow : (x <<< (n+1)).getLsbD 0=false := by
      rw [BitVec.getLsbD,hvalue',Nat.testBit_zero]
      simp
    have hdown : shift poly (x <<< (n+1))=x <<< n := by
      rw [shift,hlow,if_neg (by decide),BitVec.xor_zero]
      apply BitVec.eq_of_toNat_eq
      rw [BitVec.toNat_ushiftRight,hvalue',hvalue,Nat.shiftRight_eq_div_pow]
      omega
    rw [Function.iterate_succ_apply,hdown,ih hn]

theorem split_low (n : ℕ) (x : BitVec w) :
    x=(x&&&BitVec.ofNat w (2^n-1))^^^(x >>> n <<< n) := by
  refine BitVec.eq_of_getLsbD_eq fun i hi => ?_
  rw [BitVec.getLsbD_xor,BitVec.getLsbD_and,BitVec.getLsbD_ofNat,Nat.testBit_two_pow_sub_one,
    BitVec.getLsbD_shiftLeft,BitVec.getLsbD_ushiftRight]
  by_cases hlow : i < n
  · simp [hi,hlow]
  · simp [hi,hlow,Nat.add_sub_cancel' (Nat.le_of_not_lt hlow)]

theorem iterate_shift_eq (n : ℕ) (x : BitVec w) :
    (shift poly)^[n] x=(shift poly)^[n] (x&&&BitVec.ofNat w (2^n-1))^^^(x >>> n) := by
  have hup : (x >>> n).toNat*2^n < 2^w := by
    rw [BitVec.toNat_ushiftRight,Nat.shiftRight_eq_div_pow]
    exact Nat.lt_of_le_of_lt (Nat.div_mul_le_self _ _) x.isLt
  conv_lhs => rw [split_low n x]
  rw [iterate_shift_xor,iterate_shift_shiftLeft n hup]

end Shift

section Messages

variable {poly : BitVec w} {c : ℕ}

theorem packed_lt {bs : List (BitVec w)} (hbs : ∀ b∈bs,b.toNat < 2^c) (hfits : c*bs.length ≤ w) :
    (packed c bs).toNat < 2^(c*bs.length) := by
  induction bs with
  | nil => simp [packed]
  | cons b bs ih =>
    rw [length_cons,Nat.mul_succ] at hfits
    have hrest := ih (fun x hx => hbs x (mem_cons_of_mem b hx)) (by omega)
    have hb := hbs b mem_cons_self
    rw [packed,BitVec.toNat_xor,BitVec.toNat_shiftLeft,Nat.shiftLeft_eq,length_cons,
      Nat.mul_succ]
    have hup : (packed c bs).toNat*2^c < 2^(c*bs.length+c) := by
      rw [Nat.pow_add]
      exact Nat.mul_lt_mul_of_pos_right hrest (Nat.two_pow_pos c)
    refine Nat.xor_lt_two_pow ?_ (Nat.lt_of_le_of_lt (Nat.mod_le _ _) hup)
    exact Nat.lt_of_lt_of_le hb (Nat.pow_le_pow_right (by decide) (by omega))

theorem feedAll_packed {bs : List (BitVec w)} (hbs : ∀ b∈bs,b.toNat < 2^c)
    (hfits : c*bs.length ≤ w) (s : BitVec w) :
    feedAll poly c s bs=(shift poly)^[c*bs.length] (s^^^packed c bs) := by
  induction bs generalizing s with
  | nil => simp [feedAll,packed]
  | cons b bs ih =>
    rw [length_cons,Nat.mul_succ] at hfits ⊢
    have hrest : ∀ x∈bs,x.toNat < 2^c := fun x hx => hbs x (mem_cons_of_mem b hx)
    have hsmall : (packed c bs).toNat*2^c < 2^w := by
      have hlt := packed_lt hrest (by omega : c*bs.length ≤ w)
      calc (packed c bs).toNat*2^c < 2^(c*bs.length)*2^c :=
            Nat.mul_lt_mul_of_pos_right hlt (Nat.two_pow_pos c)
        _=2^(c*bs.length+c) := (Nat.pow_add 2 _ _).symm
        _≤2^w := Nat.pow_le_pow_right (by decide) hfits
    -- the later symbols could as well have been there from the start, further up
    calc feedAll poly c s (b::bs)
        =feedAll poly c ((shift poly)^[c] (s^^^b)) bs := rfl
      _=(shift poly)^[c*bs.length] ((shift poly)^[c] (s^^^b)^^^packed c bs) :=
          ih hrest (by omega) _
      _=(shift poly)^[c*bs.length]
            ((shift poly)^[c] (s^^^b)^^^(shift poly)^[c] (packed c bs <<< c)) := by
          rw [iterate_shift_shiftLeft c hsmall]
      _=(shift poly)^[c*bs.length+c] (s^^^(b^^^packed c bs <<< c)) := by
          rw [← iterate_shift_xor,Function.iterate_add_apply,BitVec.xor_assoc]

theorem feedAll_injective (hpoly : poly.msb=true) (bs : List (BitVec w)) :
    Function.Injective fun s => feedAll poly c s bs := by
  induction bs with
  | nil => exact fun _ _ h => h
  | cons b bs ih =>
    intro s s' h
    have hstep : feed poly c s b=feed poly c s' b := ih h
    have hxor := (shift_injective hpoly).iterate c hstep
    exact (BitVec.xor_left_inj b).mp hxor

theorem packed_eq_of_feedAll (hpoly : poly.msb=true) {u v : List (BitVec w)}
    (hu : ∀ b∈u,b.toNat < 2^c) (hv : ∀ b∈v,b.toNat < 2^c) (hlen : u.length=v.length)
    (hfits : c*u.length ≤ w) (s : BitVec w) (z : List (BitVec w))
    (h : feedAll poly c s (u++z)=feedAll poly c s (v++z)) : packed c u=packed c v := by
  rw [feedAll,feedAll,foldl_append,foldl_append] at h
  have hstretch : feedAll poly c s u=feedAll poly c s v := feedAll_injective hpoly z h
  rw [feedAll_packed hu hfits,feedAll_packed hv (hlen ▸ hfits),← hlen] at hstretch
  exact (BitVec.xor_right_inj s).mp ((shift_injective hpoly).iterate _ hstretch)

theorem feedAll_eq_zero_iff (hpoly : poly.msb=true) {bs : List (BitVec w)}
    (hbs : ∀ b∈bs,b.toNat < 2^c) (hfits : c*bs.length ≤ w) (s : BitVec w) :
    feedAll poly c s bs=0#w ↔ packed c bs=s := by
  have hzero : (shift poly)^[c*bs.length] (0#w)=0#w := by
    have h : (shift poly)^[c*bs.length] (0#w^^^0#w)=_ := iterate_shift_xor (c*bs.length) 0#w 0#w
    rwa [BitVec.xor_self,BitVec.xor_self] at h
  rw [feedAll_packed hbs hfits]
  constructor
  · intro h
    rw [← hzero] at h
    exact (eq_of_xor_eq_zero ((shift_injective hpoly).iterate _ h)).symm
  · intro h
    rw [h,BitVec.xor_self,hzero]

end Messages

end ShiftRegister

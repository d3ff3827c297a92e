import Mathlib.Data.List.Basic
import Mathlib.Data.List.Induction
import Mathlib.Tactic.Positivity
import Mathlib.Tactic.Ring

/-!
# Byte strings and decimal text

Byte strings stand for `std::string`. Decimal printing follows
`std::to_string`, and reading a run of digits accumulates the value most
significant digit first.
-/

open List

namespace Mnemos

abbrev Bytes := List UInt8

def ascii (s : String) : Bytes := s.toList.map fun c => UInt8.ofNat c.toNat

def cr : UInt8 := 13

def lf : UInt8 := 10

def crlf : Bytes := [cr,lf]

def isSpace (c : UInt8) : Bool := c==32 || (9 ≤ c && c ≤ 13)

def lowerByte (c : UInt8) : UInt8 := if 65 ≤ c && c ≤ 90 then c+32 else c

def toLower (s : Bytes) : Bytes := s.map lowerByte

def isDigit (c : UInt8) : Bool := 48 ≤ c && c ≤ 57

theorem forall_byte {P : UInt8 → Prop} (h : ∀ n : Fin 256,P (UInt8.ofFin n)) (c : UInt8) : P c :=
  h c.toFin

def digitByte (d : ℕ) : UInt8 := UInt8.ofNat (48+d)

/-- Decimal digits of `n`, most significant first, with enough steps allowed. -/
def natDecimalAux : ℕ → ℕ → Bytes
  | 0,_ => []
  | steps+1,n =>
    if n < 10 then [digitByte n] else natDecimalAux steps (n/10)++[digitByte (n%10)]

def natDecimal (n : ℕ) : Bytes := natDecimalAux (n+1) n

def intDecimal (n : ℤ) : Bytes := if n < 0 then 45::natDecimal n.natAbs else natDecimal n.natAbs

/-- Value of a digit run appended to an accumulated value; none at a non-digit. -/
def readDigits : ℕ → Bytes → Option ℕ
  | acc,[] => some acc
  | acc,c::cs => if isDigit c then readDigits (acc*10+(c.toNat-48)) cs else none

theorem natDecimalAux_eq {steps n : ℕ} (h : n < steps) :
    natDecimalAux steps n=natDecimal n := by
  induction n using Nat.strong_induction_on generalizing steps with
  | _ n ih =>
    cases steps with
    | zero => omega
    | succ steps =>
      rw [natDecimal,natDecimalAux,natDecimalAux]
      by_cases hn : n < 10
      · rw [if_pos hn,if_pos hn]
      · rw [if_neg hn,if_neg hn,ih (n/10) (by omega) (by omega : n/10 < steps),
          ih (n/10) (by omega) (by omega : n/10 < n)]

theorem natDecimal_eq (n : ℕ) :
    natDecimal n=if n < 10 then [digitByte n] else natDecimal (n/10)++[digitByte (n%10)] := by
  rw [natDecimal,natDecimalAux]
  by_cases hn : n < 10
  · rw [if_pos hn,if_pos hn]
  · rw [if_neg hn,if_neg hn,natDecimalAux_eq (by omega)]

theorem digitByte_toNat {d : ℕ} (h : d < 10) : (digitByte d).toNat=48+d := by
  rw [digitByte,UInt8.toNat_ofNat']
  omega

theorem isDigit_iff (c : UInt8) : isDigit c=true ↔ 48 ≤ c.toNat ∧ c.toNat ≤ 57 := by
  rw [isDigit,Bool.and_eq_true,decide_eq_true_iff,decide_eq_true_iff,UInt8.le_iff_toNat_le,
    UInt8.le_iff_toNat_le]
  rfl

theorem isDigit_digitByte {d : ℕ} (h : d < 10) : isDigit (digitByte d)=true := by
  rw [isDigit_iff,digitByte_toNat h]
  omega

theorem readDigits_append (acc : ℕ) (xs ys : Bytes) :
    readDigits acc (xs++ys)=(readDigits acc xs).bind fun v => readDigits v ys := by
  induction xs generalizing acc with
  | nil => rfl
  | cons c xs ih =>
    rw [cons_append,readDigits,readDigits]
    split
    · exact ih _
    · rfl

theorem readDigits_mono {acc v : ℕ} {s : Bytes} (h : readDigits acc s=some v) : acc ≤ v := by
  induction s generalizing acc with
  | nil => exact (Option.some.inj h).le
  | cons c cs ih =>
    rw [readDigits] at h
    split at h
    · have hle := ih h
      omega
    · cases h

theorem readDigits_natDecimal (n : ℕ) : readDigits 0 (natDecimal n)=some n := by
  induction n using Nat.strong_induction_on with
  | _ n ih =>
    rw [natDecimal_eq]
    by_cases hn : n < 10
    · rw [if_pos hn,readDigits,if_pos (isDigit_digitByte hn),readDigits,digitByte_toNat hn]
      congr 1
      omega
    · have hd : n%10 < 10 := Nat.mod_lt n (by decide)
      rw [if_neg hn,readDigits_append,ih (n/10) (by omega),Option.bind_some,readDigits,
        if_pos (isDigit_digitByte hd),readDigits,digitByte_toNat hd]
      congr 1
      omega

theorem natDecimal_ne_nil (n : ℕ) : natDecimal n≠[] := by
  rw [natDecimal_eq]
  split
  · exact cons_ne_nil _ _
  · exact append_ne_nil_of_right_ne_nil _ (cons_ne_nil _ _)

theorem natDecimal_digits (n : ℕ) : ∀ c∈natDecimal n, isDigit c=true := by
  induction n using Nat.strong_induction_on with
  | _ n ih =>
    intro c hc
    rw [natDecimal_eq] at hc
    by_cases hn : n < 10
    · rw [if_pos hn,mem_singleton] at hc
      rw [hc]
      exact isDigit_digitByte hn
    · rw [if_neg hn,mem_append,mem_singleton] at hc
      cases hc with
      | inl h => exact ih (n/10) (by omega) c h
      | inr h =>
        rw [h]
        exact isDigit_digitByte (Nat.mod_lt n (by decide))

theorem natDecimal_head {n : ℕ} (hn : n≠0) : (natDecimal n).head?≠some 48 := by
  induction n using Nat.strong_induction_on with
  | _ n ih =>
    rw [natDecimal_eq]
    by_cases h10 : n < 10
    · rw [if_pos h10]
      intro h
      have hb : digitByte n=48 := Option.some.inj h
      have hv := congrArg UInt8.toNat hb
      rw [digitByte_toNat h10] at hv
      have h48 : (48 : UInt8).toNat=48 := rfl
      omega
    · rw [if_neg h10,head?_append_of_ne_nil _ (natDecimal_ne_nil _)]
      exact ih (n/10) (by omega) (by omega)

theorem digitByte_sub {c : UInt8} (hc : isDigit c=true) : digitByte (c.toNat-48)=c := by
  have h := (isDigit_iff c).mp hc
  apply UInt8.toNat_inj.mp
  rw [digitByte_toNat (by omega)]
  omega

theorem natDecimal_of_readDigits {s : Bytes} {n : ℕ} (hs : s≠[])
    (hlead : s.head?=some 48 → s.length=1) (h : readDigits 0 s=some n) : natDecimal n=s := by
  induction s using List.reverseRecOn generalizing n with
  | nil => exact absurd rfl hs
  | append_singleton s c ih =>
    rw [readDigits_append] at h
    cases hv : readDigits 0 s with
    | none =>
      rw [hv] at h
      exact absurd h (by simp)
    | some v =>
      rw [hv,Option.bind_some,readDigits] at h
      by_cases hc : isDigit c=true
      · rw [if_pos hc,readDigits] at h
        have hn : v*10+(c.toNat-48)=n := Option.some.inj h
        have hcode := (isDigit_iff c).mp hc
        have hbyte := digitByte_sub hc
        by_cases hnil : s=[]
        · subst hnil
          have hv0 : v=0 := (Option.some.inj hv).symm
          rw [natDecimal_eq,if_pos (by omega),← hn,hv0,Nat.zero_mul,Nat.zero_add,hbyte]
          rfl
        · have hhead : (s++[c]).head?=s.head? := head?_append_of_ne_nil s hnil
          have hne : ¬ s.head?=some 48 := by
            intro h0
            have hlen := hlead (hhead.trans h0)
            rw [length_append,length_singleton] at hlen
            exact hnil (length_eq_zero_iff.mp (by omega))
          have hprev := ih hnil (fun h0 => absurd h0 hne) hv
          have hvpos : v≠0 := by
            intro h0
            rw [h0] at hprev
            exact hne (hprev ▸ rfl)
          rw [natDecimal_eq,if_neg (by omega),show n/10=v by omega,hprev,
            show n%10=c.toNat-48 by omega,hbyte]
      · rw [if_neg hc] at h
        exact absurd h (by simp)

theorem div_ten_lt {n k : ℕ} (hn : ¬n < 10) (h : n < 10^(k+1)) : 0 < k ∧ n/10 < 10^k := by
  have hdiv : n/10 < 10^k := by
    rw [Nat.div_lt_iff_lt_mul (by decide),← pow_succ]
    exact h
  refine ⟨Nat.pos_of_ne_zero fun h0 => ?_,hdiv⟩
  rw [h0] at hdiv
  omega

theorem natDecimal_length {n k : ℕ} (hk : 0 < k) (h : n < 10^k) : (natDecimal n).length ≤ k := by
  induction k generalizing n with
  | zero => exact absurd hk (lt_irrefl 0)
  | succ k ih =>
    rw [natDecimal_eq]
    split
    · exact Nat.succ_le_succ (Nat.zero_le k)
    · rename_i hn
      obtain ⟨hkpos,hdiv⟩ := div_ten_lt hn h
      have hlen := ih hkpos hdiv
      rw [length_append,length_singleton]
      omega

end Mnemos

/-! ## Fixed-width integers as bytes -/

open List

namespace Mnemos

def leBytes : ℕ → ℕ → Bytes
  | 0,_ => []
  | width+1,n => UInt8.ofNat (n%256)::leBytes width (n/256)

def leValue : Bytes → ℕ
  | [] => 0
  | b::bs => b.toNat+256*leValue bs

def beBytes (width n : ℕ) : Bytes := (leBytes width n).reverse

def beValue (bs : Bytes) : ℕ := leValue bs.reverse

def toUnsigned (bits : ℕ) (z : ℤ) : ℕ := (z%2^bits).toNat

/-- Two's complement reading of an unsigned value of `bits` bits. -/
def toSigned (bits n : ℕ) : ℤ := if n < 2^(bits-1) then n else n-2^bits

def FitsSigned (bits : ℕ) (z : ℤ) : Prop := -2^(bits-1) ≤ z ∧ z < 2^(bits-1)

instance (bits : ℕ) (z : ℤ) : Decidable (FitsSigned bits z) := by
  unfold FitsSigned
  infer_instance

theorem FitsSigned.mono {bits bits' : ℕ} {z : ℤ} (hle : bits ≤ bits') (h : FitsSigned bits z) :
    FitsSigned bits' z := by
  have hpow : (2 : ℤ)^(bits-1) ≤ 2^(bits'-1) := pow_le_pow_right₀ (by decide) (by omega)
  unfold FitsSigned at *
  omega

variable (width : ℕ)

theorem pow_bytes : 256^width=2^(8*width) := by
  rw [pow_mul]
  rfl

@[simp] theorem leBytes_length (n : ℕ) : (leBytes width n).length=width := by
  induction width generalizing n with
  | zero => rfl
  | succ width ih => rw [leBytes,length_cons,ih]

@[simp] theorem beBytes_length (n : ℕ) : (beBytes width n).length=width := by
  rw [beBytes,length_reverse,leBytes_length]

theorem leValue_leBytes (n : ℕ) : leValue (leBytes width n)=n%256^width := by
  induction width generalizing n with
  | zero => rw [leBytes,leValue,pow_zero,Nat.mod_one]
  | succ width ih =>
    have hbyte : n%256%2^8=n%256 := Nat.mod_eq_of_lt (Nat.mod_lt n (by decide))
    rw [leBytes,leValue,ih,UInt8.toNat_ofNat',hbyte,pow_succ' 256 width,Nat.mod_mul]

theorem leValue_leBytes_of_lt {width n : ℕ} (h : n < 256^width) :
    leValue (leBytes width n)=n := by
  rw [leValue_leBytes,Nat.mod_eq_of_lt h]

theorem leValue_lt (bs : Bytes) : leValue bs < 256^bs.length := by
  induction bs with
  | nil => rw [leValue,length_nil,pow_zero]; exact one_pos
  | cons b bs ih =>
    have hb := b.toNat_lt
    rw [leValue,length_cons,pow_succ']
    omega

theorem leBytes_leValue (bs : Bytes) : leBytes bs.length (leValue bs)=bs := by
  induction bs with
  | nil => rfl
  | cons b bs ih =>
    have hb := b.toNat_lt
    rw [length_cons,leBytes,leValue,show (b.toNat+256*leValue bs)/256=leValue bs by omega,ih,
      show (b.toNat+256*leValue bs)%256=b.toNat by omega,UInt8.ofNat_toNat]

theorem beValue_beBytes_of_lt {width n : ℕ} (h : n < 256^width) :
    beValue (beBytes width n)=n := by
  rw [beValue,beBytes,reverse_reverse,leValue_leBytes_of_lt h]

theorem toUnsigned_lt (bits : ℕ) (z : ℤ) : toUnsigned bits z < 2^bits := by
  have hpos : (0 : ℤ) < 2^bits := by positivity
  have h := Int.emod_lt_of_pos z hpos
  have h0 := Int.emod_nonneg z hpos.ne'
  rw [toUnsigned,Int.toNat_lt h0]
  push_cast
  exact h

theorem toUnsigned_mod {bits bits' : ℕ} (h : bits ≤ bits') (z : ℤ) :
    toUnsigned bits' z%2^bits=toUnsigned bits z := by
  have hdvd : (2 : ℤ)^bits∣2^bits' := pow_dvd_pow 2 h
  have hnonneg : 0 ≤ z%2^bits' := Int.emod_nonneg z (by positivity)
  unfold toUnsigned
  rw [← Int.emod_emod_of_dvd z hdvd,Int.toNat_emod hnonneg (by positivity)]
  norm_cast

theorem toSigned_toUnsigned {bits : ℕ} {z : ℤ} (hbits : 0 < bits) (h : FitsSigned bits z) :
    toSigned bits (toUnsigned bits z)=z := by
  obtain ⟨half,rfl⟩ : ∃ half,bits=half+1 := ⟨bits-1,by omega⟩
  obtain ⟨hlow,hhigh⟩ := h
  have hpos : (0 : ℤ) < 2^half := by positivity
  have hpow : (2 : ℤ)^(half+1)=2*2^half := pow_succ' 2 half
  rw [Nat.add_sub_cancel] at hlow hhigh
  rw [toSigned,toUnsigned,Nat.add_sub_cancel,hpow]
  have hcast : ((2^half : ℕ) : ℤ)=2^half := by push_cast; rfl
  by_cases hz : 0 ≤ z
  · have hmod : z%(2*2^half)=z := Int.emod_eq_of_lt hz (by omega)
    rw [hmod,if_pos (by rw [Int.toNat_lt hz,hcast]; exact hhigh),Int.toNat_of_nonneg hz]
  · have hmod : z%(2*2^half)=z+2*2^half := by
      rw [← Int.add_emod_right,Int.emod_eq_of_lt (by omega) (by omega)]
    have hge : 0 ≤ z+2*2^half := by omega
    rw [hmod,if_neg (by rw [Int.toNat_lt hge,hcast]; omega),Int.toNat_of_nonneg hge]
    omega

theorem toSigned_fits {bits n : ℕ} (hbits : 0 < bits) (h : n < 2^bits) :
    FitsSigned bits (toSigned bits n) := by
  obtain ⟨half,rfl⟩ : ∃ half,bits=half+1 := ⟨bits-1,by omega⟩
  have hpow : (2 : ℤ)^(half+1)=2*2^half := pow_succ' 2 half
  have hcast : ((2^half : ℕ) : ℤ)=2^half := by push_cast; rfl
  have hn : (n : ℤ) < 2*2^half := by
    rw [← hpow]
    exact_mod_cast h
  rw [FitsSigned,toSigned,Nat.add_sub_cancel,hpow]
  split
  · rename_i hlt
    have : (n : ℤ) < 2^half := by exact_mod_cast hlt
    omega
  · rename_i hlt
    have : ¬ (n : ℤ) < 2^half := by
      intro h0
      exact hlt (by exact_mod_cast h0)
    omega

theorem toSigned_leValue_leBytes {z : ℤ} (hwidth : 0 < width)
    (h : FitsSigned (8*width) z) :
    toSigned (8*width) (leValue (leBytes width (toUnsigned (8*width) z)))=z := by
  have hlt := toUnsigned_lt (8*width) z
  rw [← pow_bytes] at hlt
  rw [leValue_leBytes_of_lt hlt,toSigned_toUnsigned (by omega) h]

end Mnemos

/-! ## Object encodings and the strict integer parse -/

open List

namespace Mnemos

inductive ObjType where
  | string
  | list
  | set
  | hash
  | zset
deriving DecidableEq,Repr

inductive ObjEncoding where
  | int
  | embStr
  | raw
  | listPack
  | quickList
  | intSet
  | hashTable
  | skipList
deriving DecidableEq,Repr

def typeName : ObjType → Bytes
  | .string => ascii "string"
  | .list => ascii "list"
  | .set => ascii "set"
  | .hash => ascii "hash"
  | .zset => ascii "zset"

def encodingName : ObjEncoding → Bytes
  | .int => ascii "int"
  | .embStr => ascii "embstr"
  | .raw => ascii "raw"
  | .listPack => ascii "listpack"
  | .quickList => ascii "quicklist"
  | .intSet => ascii "intset"
  | .hashTable => ascii "hashtable"
  | .skipList => ascii "skiplist"

def kEmbStrSizeLimit : ℕ := 44

/-- The digit loop of `stringToInt64`, with its `uint64` overflow test. -/
def accumulateDigits : ℕ → Bytes → Option ℕ
  | acc,[] => some acc
  | acc,c::cs =>
    if c < 48 || 57 < c then none
    else
      let digit := c.toNat-48
      if (2^64-1-digit)/10 < acc then none else accumulateDigits (acc*10+digit) cs

def stringToInt64 (s : Bytes) : Option ℤ :=
  if s=[] || 21 ≤ s.length then none
  else
    let negative := s.head?==some 45
    if negative && s.length==1 then none
    else
      let digits := if negative then s.tail else s
      if digits.head?==some 48 then
        if digits.length≠1 then none else if negative then none else some 0
      else
        match accumulateDigits 0 digits with
        | none => none
        | some acc =>
          if negative then
            if 2^63 < acc then none else some (-acc)
          else
            if 2^63-1 < acc then none else some acc

theorem accumulateDigits_eq {acc : ℕ} (hacc : acc < 2^64) (s : Bytes) :
    accumulateDigits acc s=(readDigits acc s).filter (· < 2^64) := by
  induction s generalizing acc with
  | nil =>
    rw [accumulateDigits,readDigits,Option.filter_some,if_pos (decide_eq_true hacc)]
  | cons c cs ih =>
    have hdigit : (c < 48 || 57 < c)=!isDigit c := by
      rw [Bool.eq_iff_iff,Bool.or_eq_true,Bool.not_eq_true',← Bool.not_eq_true,isDigit_iff,
        decide_eq_true_iff,decide_eq_true_iff,UInt8.lt_iff_toNat_lt,UInt8.lt_iff_toNat_lt]
      have h48 : (48 : UInt8).toNat=48 := rfl
      have h57 : (57 : UInt8).toNat=57 := rfl
      omega
    rw [accumulateDigits,readDigits,hdigit]
    by_cases hc : isDigit c=true
    · have hcode := (isDigit_iff c).mp hc
      rw [hc,if_pos rfl]
      simp only [Bool.not_true,Bool.false_eq_true,if_false]
      by_cases hover : (2^64-1-(c.toNat-48))/10 < acc
      · rw [if_pos hover]
        symm
        -- Every later value is at least the one that already overflowed.
        rw [Option.filter_eq_none_iff]
        intro v hv
        have hmono := readDigits_mono hv
        simp only [decide_eq_true_eq]
        omega
      · rw [if_neg hover,ih (by omega)]
    · rw [Bool.eq_false_of_not_eq_true hc]
      simp

theorem natDecimal_of_accumulateDigits {ds : Bytes} {v : ℕ} (hne : ds≠[])
    (hlead : ¬ (ds.head?==some 48)=true) (h : accumulateDigits 0 ds=some v) :
    natDecimal v=ds ∧ v≠0 := by
  rw [accumulateDigits_eq (by decide)] at h
  have hread := (Option.filter_eq_some_iff.mp h).1
  have hdec := natDecimal_of_readDigits hne (fun h0 => absurd (by rw [h0]; rfl) hlead) hread
  exact ⟨hdec,fun h0 => hlead (by rw [← hdec,h0]; rfl)⟩

theorem accumulateDigits_natDecimal {v : ℕ} (hv : v < 2^64) :
    accumulateDigits 0 (natDecimal v)=some v := by
  rw [accumulateDigits_eq (by decide),readDigits_natDecimal,Option.filter_some,
    if_pos (decide_eq_true hv)]

theorem eq_intDecimal_of_stringToInt64 {s : Bytes} {n : ℤ} (h : stringToInt64 s=some n) :
    s=intDecimal n ∧ FitsSigned 64 n := by
  unfold stringToInt64 at h
  split at h
  · cases h
  rename_i hsize
  have hne : s≠[] := fun h0 => hsize (by rw [h0]; rfl)
  obtain ⟨c,ds,rfl⟩ := exists_cons_of_ne_nil hne
  dsimp only at h
  split at h
  · cases h
  rename_i hone
  cases hneg : (c::ds).head?==some 45 with
  | true =>
    have hc : c=45 := by simpa using hneg
    have hds : ds≠[] := by
      intro h0
      rw [hneg,h0] at hone
      exact hone rfl
    rw [hneg,if_pos rfl,tail_cons] at h
    split at h
    · rw [if_pos rfl] at h
      split at h <;> cases h
    · rename_i hlead
      cases hacc : accumulateDigits 0 ds with
      | none =>
        rw [hacc] at h
        cases h
      | some acc =>
        have hdec := natDecimal_of_accumulateDigits hds hlead hacc
        rw [hacc] at h
        dsimp only at h
        rw [if_pos rfl] at h
        split at h
        · cases h
        · have hn : -(acc : ℤ)=n := Option.some.inj h
          have hpos := hdec.2
          rw [intDecimal,if_pos (by omega),show n.natAbs=acc by omega,hdec.1,hc,FitsSigned]
          exact ⟨rfl,by omega,by omega⟩
  | false =>
    rw [hneg,if_neg Bool.false_ne_true] at h
    split at h
    · rename_i hlead
      split at h
      · cases h
      · rename_i hlen
        rw [if_neg Bool.false_ne_true] at h
        have hn : 0=n := Option.some.inj h
        have hc : c=48 := by simpa using hlead
        have hds : ds=[] := by simpa using hlen
        rw [← hn,hc,hds]
        exact ⟨rfl,by decide⟩
    · rename_i hlead
      cases hacc : accumulateDigits 0 (c::ds) with
      | none =>
        rw [hacc] at h
        cases h
      | some acc =>
        have hdec := natDecimal_of_accumulateDigits hne hlead hacc
        rw [hacc] at h
        dsimp only at h
        rw [if_neg Bool.false_ne_true] at h
        split at h
        · cases h
        · have hn : (acc : ℤ)=n := Option.some.inj h
          rw [intDecimal,if_neg (by omega),show n.natAbs=acc by omega,hdec.1,FitsSigned]
          exact ⟨rfl,by omega,by omega⟩

theorem stringToInt64_intDecimal {n : ℤ} (hn : FitsSigned 64 n) :
    stringToInt64 (intDecimal n)=some n := by
  obtain ⟨hlow,hhigh⟩ := hn
  have hlen := natDecimal_length (by decide : 0 < 19) (by omega : n.natAbs < 10^19)
  have hne := natDecimal_ne_nil n.natAbs
  have hacc := accumulateDigits_natDecimal (by omega : n.natAbs < 2^64)
  unfold stringToInt64
  by_cases hneg : n < 0
  · have hhead := natDecimal_head (by omega : n.natAbs≠0)
    have hpos : (natDecimal n.natAbs).length≠0 := fun h => hne (length_eq_zero_iff.mp h)
    have hsign : ((some 45 : Option UInt8)==some 45)=true := by decide
    simp only [intDecimal,if_pos hneg,head?_cons,tail_cons,length_cons,hsign,
      Bool.true_and,if_true]
    rw [if_neg (by simp; omega),if_neg (by simpa using hpos),if_neg (by simpa using hhead),hacc]
    simp only
    rw [if_neg (by omega)]
    congr 1
    omega
  · simp only [intDecimal,if_neg hneg]
    have hsign : ((natDecimal n.natAbs).head?==some 45)=false := by
      rw [beq_eq_false_iff_ne]
      intro h
      exact absurd (natDecimal_digits _ _ (mem_of_mem_head? h)) (by decide)
    rw [if_neg (by simp [hne]; omega),hsign]
    simp only [Bool.false_and,Bool.false_eq_true,if_false]
    by_cases h0 : n=0
    · rw [h0]
      rfl
    · have hhead := natDecimal_head (by omega : n.natAbs≠0)
      rw [if_neg (by simpa using hhead),hacc]
      simp only
      rw [if_neg (by omega)]
      congr 1
      omega

theorem stringToInt64_eq_some {s : Bytes} {n : ℤ} :
    stringToInt64 s=some n ↔ s=intDecimal n ∧ FitsSigned 64 n := by
  constructor
  · exact eq_intDecimal_of_stringToInt64
  · rintro ⟨rfl,hn⟩
    exact stringToInt64_intDecimal hn

theorem intDecimal_length {n : ℤ} (h : FitsSigned 64 n) : (intDecimal n).length ≤ 20 := by
  have hlt : n.natAbs < 10^19 := by
    obtain ⟨hlow,hhigh⟩ := h
    omega
  have hlen := natDecimal_length (by decide : 0 < 19) hlt
  rw [intDecimal]
  split
  · rw [length_cons]
    omega
  · omega

theorem intDecimal_inj {m n : ℤ} (h : intDecimal m=intDecimal n) : m=n := by
  have hnat : ∀ {a b : ℕ},natDecimal a=natDecimal b → a=b := by
    intro a b hab
    have hread := readDigits_natDecimal a
    rw [hab,readDigits_natDecimal] at hread
    exact (Option.some.inj hread).symm
  have hsign : ∀ (a : ℕ) (s : Bytes),natDecimal a≠45::s := by
    intro a s ha
    have hdigit := natDecimal_digits a 45 (by rw [ha]; exact mem_cons_self)
    exact absurd hdigit (by decide)
  rw [intDecimal,intDecimal] at h
  split at h <;> split at h
  · have habs := hnat (List.cons.inj h).2
    omega
  · exact absurd h.symm (hsign _ _)
  · exact absurd h (hsign _ _)
  · have habs := hnat h
    omega

/-! ## Glob patterns of `core/strings.cpp` -/

def upperByte (c : UInt8) : UInt8 := if 97 ≤ c && c ≤ 122 then c-32 else c

def toUpper (s : Bytes) : Bytes := s.map upperByte

def equalsIgnoreCase (a b : Bytes) : Bool := toLower a==toLower b

def isWord (a : Bytes) (word : String) : Bool := equalsIgnoreCase a (ascii word)

namespace Glob

def charValue (c : UInt8) : ℤ := if c < 128 then c.toNat else c.toNat-256

def fold (caseInsensitive : Bool) (c : UInt8) : UInt8 := if caseInsensitive then lowerByte c else c

def inRange (lo hi c : UInt8) : Bool :=
  if charValue hi < charValue lo then charValue hi ≤ charValue c && charValue c ≤ charValue lo
  else charValue lo ≤ charValue c && charValue c ≤ charValue hi

/-- The items of a bracket class up to its closing bracket: whether one matches, and the pattern
after the class; none when the bracket is not closed. -/
def matchClass (f : UInt8 → UInt8) (c : UInt8) : Bytes → Bool → Option (Bool×Bytes)
  | [],_ => none
  | [b],matched => if b=93 then some (matched,[]) else none
  | [b,x],matched =>
    if b=93 then some (matched,[x])
    else if b=92 then none
    else matchClass f c [x] (matched || f b==f c)
  | b::x::y::rest,matched =>
    if b=93 then some (matched,x::y::rest)
    else if b=92 then matchClass f c (y::rest) (matched || f x==f c)
    else if x=45 && y != 93 then matchClass f c rest (matched || inRange (f b) (f y) (f c))
    else matchClass f c (x::y::rest) (matched || f b==f c)

def matchItem (f : UInt8 → UInt8) (c : UInt8) : Bytes → Option Bytes
  | [] => none
  | b::rest =>
    if b=63 then some rest
    else if b=91 then
      let negate := rest.head?==some 94
      match matchClass f c (if negate then rest.drop 1 else rest) false with
      | none => none
      | some (matched,after) => if matched != negate then some after else none
    else
      match b,rest with
      | 92,x::after => if f x==f c then some after else none
      | _,_ => if f b==f c then some rest else none

/-- The main loop: pattern and target that are left, and the two places of the last star. -/
def matchLoop (f : UInt8 → UInt8) :
    ℕ → Bytes → Bytes → Option (Bytes×Bytes) → Bool
  | 0,_,_,_ => false
  | _+1,pattern,[],_ => pattern.all (·==42)
  | fuel+1,pattern,c::target,star =>
    if pattern.head?=some 42 then
      let after := pattern.dropWhile (·==42)
      matchLoop f fuel after (c::target) (some (after,c::target))
    else
      match matchItem f c pattern with
      | some after => matchLoop f fuel after target star
      | none =>
        match star with
        | none => false
        | some (after,[]) => matchLoop f fuel after [] star
        | some (after,_::skipped) => matchLoop f fuel after skipped (some (after,skipped))

end Glob

/-- Actual `globMatch`. Between two visits of a star every step shortens the target, and every visit
shortens what the star has left. -/
def globMatch (pattern target : Bytes) (caseInsensitive : Bool) : Bool :=
  Glob.matchLoop (Glob.fold caseInsensitive) ((target.length+2)*(target.length+pattern.length+3))
    pattern target none

example : globMatch (ascii "h[a-c]l*o") (ascii "hbllo") false=true := by decide +kernel

example : globMatch (ascii "h\\*") (ascii "hx") false=false := by decide +kernel

end Mnemos
